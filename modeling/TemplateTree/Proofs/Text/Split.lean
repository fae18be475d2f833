import TemplateTree.Text.Split

/-!
# Where a text is split

What each way of splitting goes by: no place before the split meets the condition, and
a text that does not meet it is passed over whole, whatever follows.
-/

namespace TemplateTree

-- ---------------------------------------------------------------------------
-- Splitting where a condition holds
-- ---------------------------------------------------------------------------

/-- No suffix that starts before the place of the split meets the condition. -/
theorem stop_eq_false {stop : List Char → Bool} {cs front back : List Char}
    (hs : front ++ back = cs) (hl : (splitWhen stop cs).2.length < back.length) :
    stop back = false := by
  induction cs generalizing front with
  | nil =>
    obtain ⟨rfl, rfl⟩ := List.append_eq_nil_iff.mp hs
    simp at hl
  | cons c cs ih =>
    rw [splitWhen_cons] at hl
    split at hl
    · have := congrArg List.length hs
      simp only [List.length_append, List.length_cons] at this hl
      omega
    · rename_i hc
      cases front with
      | nil =>
        rw [List.nil_append] at hs
        simpa [hs] using hc
      | cons d front => exact ih (List.cons.inj hs).2 hl

theorem stop_splitWhen_snd {stop : List Char → Bool} {cs : List Char}
    (h : (splitWhen stop cs).2 ≠ []) : stop (splitWhen stop cs).2 = true := by
  induction cs with
  | nil => simp at h
  | cons c cs ih =>
    rw [splitWhen_cons] at h ⊢
    split
    · assumption
    · rename_i hc
      simp only [hc, Bool.false_eq_true, ↓reduceIte] at h
      exact ih h

/-- Where no suffix meets the condition before `more`, the split is the one of `more`. -/
theorem splitWhen_append_left {stop : List Char → Bool} {cs more : List Char}
    (h : ∀ front back, front ++ back = cs → back ≠ [] → stop (back ++ more) = false) :
    splitWhen stop (cs ++ more) =
      (cs ++ (splitWhen stop more).1, (splitWhen stop more).2) := by
  induction cs with
  | nil => simp
  | cons c cs ih =>
    have hc : stop (c :: (cs ++ more)) = false := h [] (c :: cs) rfl (by simp)
    rw [List.cons_append, splitWhen_cons, hc]
    rw [ih fun front back hs hb => h (c :: front) back (by simp [hs]) hb]
    simp

-- ---------------------------------------------------------------------------
-- Runs of a class
-- ---------------------------------------------------------------------------

theorem splitRun_cons (p : Char → Bool) (c : Char) (cs : List Char) :
    splitRun p (c :: cs) =
      if p c then (c :: (splitRun p cs).1, (splitRun p cs).2) else ([], c :: cs) := by
  simp only [splitRun, List.takeWhile_cons, List.dropWhile_cons]
  split <;> rfl

theorem splitRun_append_left {p : Char → Bool} {run rest : List Char} (hr : ∀ c ∈ run, p c)
    (h : ∀ c ∈ rest.head?, p c = false) : splitRun p (run ++ rest) = (run, rest) := by
  induction run with
  | nil =>
    cases rest with
    | nil => rfl
    | cons c rest => simp [splitRun_cons, h c rfl]
  | cons c run ih =>
    rw [List.cons_append, splitRun_cons, if_pos (hr c (by simp)),
      ih fun d hd => hr d (List.mem_cons_of_mem c hd)]

theorem of_mem_splitRun_fst {p : Char → Bool} {c : Char} {cs : List Char}
    (h : c ∈ (splitRun p cs).1) : p c := by
  induction cs with
  | nil => simp [splitRun] at h
  | cons d cs ih =>
    rw [splitRun_cons] at h
    split at h
    · rename_i hd
      rcases List.mem_cons.mp h with rfl | h
      · exact hd
      · exact ih h
    · simp at h

-- ---------------------------------------------------------------------------
-- Cutting at an unprotected character
-- ---------------------------------------------------------------------------

/-- What is passed already stays in front of the body. -/
theorem cutAt.go_append (mark : Char) (passed earlier cs : List Char) :
    cutAt.go mark (passed ++ earlier) cs =
      { cutAt.go mark passed cs with
        body := earlier.reverse ++ (cutAt.go mark passed cs).body } := by
  fun_induction cutAt.go mark passed cs with
  | case1 passed => simp [cutAt.go]
  | case2 passed c cs ih =>
    rw [cutAt.go]
    exact ih
  | case3 passed cs hn =>
    rw [cutAt.go]
    · simp
    · exact hn
  | case4 passed c cs hn hc ih =>
    rw [cutAt.go, if_neg hc]
    · exact ih
    · exact hn

@[simp] theorem cutAt_nil (mark : Char) : cutAt mark [] = ⟨[], [], false⟩ := rfl

theorem cutAt_escaped (mark c : Char) (cs : List Char) :
    cutAt mark ('\\' :: c :: cs) =
      { cutAt mark cs with body := '\\' :: c :: (cutAt mark cs).body } := by
  simpa [cutAt, cutAt.go] using cutAt.go_append mark [] [c, '\\'] cs

theorem cutAt_mark {mark : Char} (h : mark ≠ '\\') (cs : List Char) :
    cutAt mark (mark :: cs) = ⟨[], cs, true⟩ := by
  rw [cutAt, cutAt.go, if_pos rfl]
  · rfl
  · exact fun _ _ hb => absurd hb h

theorem cutAt_plain {mark c : Char} (hm : c ≠ mark) (hb : c ≠ '\\') (cs : List Char) :
    cutAt mark (c :: cs) = { cutAt mark cs with body := c :: (cutAt mark cs).body } := by
  rw [cutAt, cutAt.go, if_neg hm]
  · exact cutAt.go_append mark [] [c] cs
  · exact fun _ _ hc => absurd hc hb

theorem cutAt_backslash {mark : Char} (h : mark ≠ '\\') :
    cutAt mark ['\\'] = ⟨['\\'], [], false⟩ := by
  simp [cutAt, cutAt.go, h.symm]

/-- The ways in which a text goes on before a cut: with the mark, with a
backslash and what it protects, with any other character, or not at all. -/
theorem cut_induction (mark : Char) {motive : List Char → Prop} (nil : motive [])
    (mark_cons : ∀ cs, motive (mark :: cs)) (backslash : motive ['\\'])
    (escaped : ∀ c cs, motive cs → motive ('\\' :: c :: cs))
    (plain : ∀ c cs, c ≠ mark → c ≠ '\\' → motive cs → motive (c :: cs)) :
    ∀ cs, motive cs
  | [] => nil
  | [c] =>
    if hm : c = mark then hm ▸ mark_cons []
    else if hb : c = '\\' then hb ▸ backslash
    else plain c [] hm hb nil
  | c :: d :: cs =>
    if hm : c = mark then hm ▸ mark_cons (d :: cs)
    else if hb : c = '\\' then
      hb ▸ escaped d cs (cut_induction mark nil mark_cons backslash escaped plain cs)
    else
      plain c (d :: cs) hm hb (cut_induction mark nil mark_cons backslash escaped plain (d :: cs))

end TemplateTree
