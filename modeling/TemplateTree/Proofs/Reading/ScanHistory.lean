import Mathlib.Data.List.Induction
import TemplateTree.Proofs.Reading.Words

/-!
# Histories of a scan

What a scan answers after any sequence of calls. It has the words in front of the closing
delimiter to give out, one for each next and all that are left for a drain
(`Scan.wordsLeft`), and it takes no token from its source but for that. So the delimiter is
reached by the first call that asks for more words than there are (`Scan.Exceeded`), and if
there is none, such a call meets the end of input, as every one after it does.
-/

namespace TemplateTree

/-- The token that a source has given out last when it gives out these after `last?`. -/
def lastTaken (ls : List Lexeme) (last? : Option Token) : Option Token :=
  (ls.map Lexeme.toToken).getLast?.or last?

theorem lastTaken_cons (l : Lexeme) (ls : List Lexeme) (last? : Option Token) :
    lastTaken (l :: ls) last? = lastTaken ls (some l.toToken) := by
  rw [lastTaken, lastTaken, List.map_cons, List.getLast?_cons, Option.some_or, Option.or_some]

theorem lastTaken_append (ls ms : List Lexeme) (last? : Option Token) :
    lastTaken (ls ++ ms) last? = lastTaken ms (lastTaken ls last?) := by
  simp only [lastTaken, List.map_append, List.getLast?_append, Option.or_assoc]

theorem exists_start_of_lastTaken {ls : List Lexeme} {last? : Option Token}
    (hls : ∀ l ∈ ls, 0 ≤ l.line ∧ 0 ≤ l.column) (hlast : ∀ t ∈ last?, ∃ p, t.start = .ok p) :
    ∀ t ∈ lastTaken ls last?, ∃ p, t.start = .ok p := by
  intro t ht
  rcases Option.or_eq_some_iff.mp ht with ht | ⟨-, ht⟩
  · obtain ⟨l, hl, rfl⟩ := List.mem_map.mp (List.mem_of_getLast? ht)
    exact Lexeme.start_toToken_isOk.mpr (hls l hl)
  · exact hlast t ht

namespace Scan

inductive Call
  | next
  | closing
  | drain
  deriving DecidableEq, Repr

inductive Answer
  | word (answer : Except Fault (Option Token))
  | closing (answer : Except Fault Token)
  | words (answer : Except Fault (List Token))

def call (s : Scan) : Call → Answer × Scan
  | .next => (.word s.next.1, s.next.2)
  | .closing => (.closing s.closing, s)
  | .drain => (.words s.drain.1, s.drain.2)

/-- The scan after calls in this order. -/
def after (s : Scan) (calls : List Call) : Scan := calls.foldl (fun s c => (s.call c).2) s

/-- What calls leave of some words if each next takes one and a drain takes all. -/
def wordsLeft (words : List Token) (calls : List Call) : List Token :=
  if .drain ∈ calls then [] else words.drop (calls.count .next)

/-- One of the calls has asked for more than these words. -/
def Exceeded (words : List Token) (calls : List Call) : Prop :=
  .drain ∈ calls ∨ words.length < calls.count .next

/-- From `s` on, next gives out these words one after the other and leads to `s'`. -/
inductive Yields : Scan → List Token → Scan → Prop
  | nil (s : Scan) : Yields s [] s
  | cons {s s' s'' : Scan} {t : Token} {ts : List Token} (h : s.next = (.ok (some t), s'))
      (hs : Yields s' ts s'') : Yields s (t :: ts) s''

variable {construct : String} {mode : PositionMode} {last? : Option Token} {words : List Token}
  {calls : List Call}

theorem after_concat (s : Scan) (calls : List Call) (c : Call) :
    s.after (calls ++ [c]) = ((s.after calls).call c).2 := by
  simp only [after, List.foldl_append, List.foldl_cons, List.foldl_nil]

theorem call_drain {s s' : Scan} {answer : Except Fault (List Token)}
    (h : s.drain = (answer, s')) : s.call .drain = (.words answer, s') := by
  rw [call, h]

theorem wordsLeft_concat (words : List Token) (calls : List Call) (c : Call) :
    wordsLeft words (calls ++ [c]) =
      match c with
      | .next => (wordsLeft words calls).tail
      | .closing => wordsLeft words calls
      | .drain => [] := by
  cases c with
  | next => by_cases h : Call.drain ∈ calls <;> simp [wordsLeft, h]
  | closing => simp [wordsLeft]
  | drain => simp [wordsLeft]

theorem exceeded_concat (words : List Token) (calls : List Call) (c : Call) :
    Exceeded words (calls ++ [c]) ↔
      match c with
      | .next => Exceeded words calls ∨ wordsLeft words calls = []
      | .closing => Exceeded words calls
      | .drain => True := by
  cases c with
  | next =>
    by_cases h : Call.drain ∈ calls
    · simp [Exceeded, h]
    · simp [Exceeded, wordsLeft, h]
      omega
  | closing => simp [Exceeded]
  | drain => simp [Exceeded]

theorem wordsLeft_of_exceeded (h : Exceeded words calls) : wordsLeft words calls = [] := by
  unfold wordsLeft
  rcases h with h | h
  · rw [if_pos h]
  · rw [List.drop_eq_nil_of_le (Nat.le_of_lt h), ite_self]

-- ---------------------------------------------------------------------------
-- Words and what lies between them
-- ---------------------------------------------------------------------------

/-- A scan passes over what is no word. -/
theorem next_of_no_words {ls : List Lexeme} (hls : ∀ l ∈ ls, l.toToken.role ≠ .closing)
    (hw : wordsOf ls = []) (last? : Option Token) (tail : List Lexeme) :
    next ⟨construct, mode, ⟨ls ++ tail, last?⟩, none⟩ =
      next ⟨construct, mode, ⟨tail, lastTaken ls last?⟩, none⟩ := by
  induction ls generalizing last? with
  | nil => rfl
  | cons l ls ih =>
    obtain ⟨hl, hls⟩ := List.forall_mem_cons.mp hls
    rw [List.cons_append, next_cons]
    cases hr : l.toToken.role with
    | closing => exact absurd hr hl
    | word =>
      rw [wordsOf_cons_of_word hr] at hw
      cases hw
    | passedOver =>
      rw [wordsOf_cons_of_passedOver hr] at hw
      rw [lastTaken_cons]
      exact ih hls hw (some l.toToken)

/-- A scan gives out the first word, and leaves what is behind it. -/
theorem exists_of_next_word {ls : List Lexeme} {t : Token} {ts : List Token}
    (hls : ∀ l ∈ ls, l.toToken.role ≠ .closing) (hw : wordsOf ls = t :: ts)
    (last? : Option Token) (tail : List Lexeme) :
    ∃ passed left, ls = passed ++ left ∧ wordsOf left = ts ∧
      next ⟨construct, mode, ⟨ls ++ tail, last?⟩, none⟩ =
        (.ok (some t), ⟨construct, mode,
          ⟨left ++ tail, lastTaken passed last?⟩, none⟩) := by
  induction ls generalizing last? with
  | nil => cases hw
  | cons l ls ih =>
    obtain ⟨hl, hls⟩ := List.forall_mem_cons.mp hls
    rw [List.cons_append, next_cons]
    cases hr : l.toToken.role with
    | closing => exact absurd hr hl
    | word =>
      rw [wordsOf_cons_of_word hr] at hw
      cases hw
      exact ⟨[l], ls, rfl, rfl, rfl⟩
    | passedOver =>
      rw [wordsOf_cons_of_passedOver hr] at hw
      obtain ⟨passed, left, rfl, hleft, hnext⟩ := ih hls hw (some l.toToken)
      refine ⟨l :: passed, left, rfl, hleft, ?_⟩
      rw [lastTaken_cons]
      exact hnext

/-- A scan gives out all words, one after the other. -/
theorem exists_yields {ls : List Lexeme} (hls : ∀ l ∈ ls, l.toToken.role ≠ .closing)
    (last? : Option Token) (tail : List Lexeme) :
    ∃ passed left, ls = passed ++ left ∧ wordsOf left = [] ∧
      Yields ⟨construct, mode, ⟨ls ++ tail, last?⟩, none⟩ (wordsOf ls) ⟨construct, mode,
        ⟨left ++ tail, lastTaken passed last?⟩, none⟩ := by
  induction hw : wordsOf ls generalizing ls last? with
  | nil => exact ⟨[], ls, rfl, hw, .nil _⟩
  | cons t ts ih =>
    obtain ⟨passed, rest, rfl, hrest, hnext⟩ := exists_of_next_word hls hw last? tail
    obtain ⟨-, hrest'⟩ := List.forall_mem_append.mp hls
    obtain ⟨passed', left, rfl, hleft, hyields⟩ := ih hrest' _ hrest
    refine ⟨passed ++ passed', left, (List.append_assoc ..).symm, hleft, .cons hnext ?_⟩
    rw [lastTaken_append]
    exact hyields

theorem Yields.drain_go {s s' : Scan} {ts : List Token} (h : s.Yields ts s')
    (read : List Token) : drain.go read s = drain.go (ts.reverse ++ read) s' := by
  induction h generalizing read with
  | nil => rfl
  | cons h hs ih =>
    rw [drain.go_eq, h, List.reverse_cons, List.append_assoc]
    exact ih _

-- ---------------------------------------------------------------------------
-- Up to the end
-- ---------------------------------------------------------------------------

/-- Next finds no word, and comes to the end of the scan: at its closing delimiter, or with
a fault. -/
def Meets (s : Scan) (ending : Except Fault Unit) (final : Scan) : Prop :=
  s.next = (ending.map fun _ => none, final)

section

variable {s s' final : Scan} {ending : Except Fault Unit} {ts : List Token}

theorem Yields.next_fst (h : s.Yields ts s') (he : s'.Meets ending final) :
    s.next.1 = ts.head?.elim (ending.map fun _ => none) fun t => .ok (some t) := by
  cases h with
  | nil => exact congrArg Prod.fst he
  | cons h => exact congrArg Prod.fst h

theorem Yields.drain (h : s.Yields ts s') (he : s'.Meets ending final) :
    s.drain = (ending.map fun _ => ts, final) := by
  rw [Scan.drain, h.drain_go, drain.go_eq, show s'.next = _ from he]
  cases ending with
  | ok => simp [Except.map]
  | error fault => rfl

/-- A scan that has come to its end stays as it is. -/
theorem Meets.call (h : final.Meets ending final) (c : Call) : (final.call c).2 = final := by
  cases c with
  | next => exact congrArg Prod.snd h
  | closing => rfl
  | drain => exact congrArg Prod.snd ((Yields.nil final).drain h)

variable {before tail : List Lexeme}

theorem exists_meets (hb : ∀ l ∈ before, l.toToken.role ≠ .closing)
    (he : Meets ⟨construct, mode, ⟨tail, lastTaken before last?⟩, none⟩ ending final) :
    ∃ s', Yields ⟨construct, mode, ⟨before ++ tail, last?⟩, none⟩ (wordsOf before) s' ∧
      s'.Meets ending final := by
  obtain ⟨passed, left, rfl, hleft, hyields⟩ :=
    @exists_yields construct mode before hb last? tail
  rw [lastTaken_append] at he
  refine ⟨_, hyields, ?_⟩
  unfold Meets
  rw [next_of_no_words (fun l hl => hb l (List.mem_append_right passed hl)) hleft]
  exact he

/-- Until more words are asked for than there are, the scan has those to come that no call
has taken; from then on it is at its end. -/
theorem after_cases (hb : ∀ l ∈ before, l.toToken.role ≠ .closing)
    (he : Meets ⟨construct, mode, ⟨tail, lastTaken before last?⟩, none⟩ ending final)
    (hfinal : final.Meets ending final) (calls : List Call) :
    let s := after ⟨construct, mode, ⟨before ++ tail, last?⟩, none⟩ calls
    (Exceeded (wordsOf before) calls ∧ s = final) ∨
      ¬Exceeded (wordsOf before) calls ∧ ∃ passed left, before = passed ++ left ∧
        wordsOf left = wordsLeft (wordsOf before) calls ∧
        s = ⟨construct, mode, ⟨left ++ tail, lastTaken passed last?⟩, none⟩ := by
  -- on the last call, since the scan is known after the calls before it
  induction calls using List.reverseRecOn with
  | nil => exact .inr ⟨by simp [Exceeded], [], before, rfl, rfl, rfl⟩
  | append_singleton calls c ih =>
    simp only [after_concat, exceeded_concat, wordsLeft_concat]
    rcases ih with ⟨hex, hs⟩ | ⟨hex, passed, left, rfl, hleft, hs⟩
    -- at its end already
    · rw [hs, hfinal.call]
      cases c with
      | next => exact .inl ⟨.inl hex, rfl⟩
      | closing => exact .inl ⟨hex, rfl⟩
      | drain => exact .inl ⟨trivial, rfl⟩
    -- still in front of it: a drain, or a next with no word left, goes there
    · rw [hs]
      have hl : ∀ l ∈ left, l.toToken.role ≠ .closing :=
        fun l hl => hb l (List.mem_append_right passed hl)
      rw [lastTaken_append] at he
      obtain ⟨s', hyields, hmeets⟩ := exists_meets hl he
      cases c with
      | closing => exact .inr ⟨hex, passed, left, rfl, hleft, rfl⟩
      | drain => exact .inl ⟨trivial, congrArg Prod.snd (hyields.drain hmeets)⟩
      | next =>
        cases hw : wordsOf left with
        | nil =>
          rw [hw] at hyields
          cases hyields
          exact .inl ⟨.inr (hleft.symm.trans hw), congrArg Prod.snd hmeets⟩
        | cons t ts =>
          obtain ⟨passed', left, rfl, hleft', hnext⟩ := exists_of_next_word hl hw _ _
          rw [hw] at hleft
          refine .inr ⟨?_, passed ++ passed', left, (List.append_assoc ..).symm, ?_, ?_⟩
          · rw [← hleft]
            exact not_or.mpr ⟨hex, List.cons_ne_nil t ts⟩
          · rw [← hleft]
            exact hleft'
          · rw [lastTaken_append]
            exact congrArg Prod.snd hnext

/-- After any calls the scan gives out the words that these have left, and comes to its end
behind them. -/
theorem exists_yields_after (hb : ∀ l ∈ before, l.toToken.role ≠ .closing)
    (he : Meets ⟨construct, mode, ⟨tail, lastTaken before last?⟩, none⟩ ending final)
    (hfinal : final.Meets ending final) (calls : List Call) :
    ∃ s', (after ⟨construct, mode, ⟨before ++ tail, last?⟩, none⟩ calls).Yields
      (wordsLeft (wordsOf before) calls) s' ∧ s'.Meets ending final := by
  rcases after_cases hb he hfinal calls with ⟨hex, hs⟩ | ⟨-, passed, left, rfl, hleft, hs⟩
  · rw [hs, wordsLeft_of_exceeded hex]
    exact ⟨final, .nil final, hfinal⟩
  · rw [hs, ← hleft]
    rw [lastTaken_append] at he
    exact exists_meets (fun l hl => hb l (List.mem_append_right passed hl)) he

end

end Scan

/-- Input that ends is said to end past the last token, if there was one. -/
theorem TokenSource.exists_endFault {last? : Option Token}
    (h : ∀ t ∈ last?, ∃ p, t.start = .ok p) (mode : PositionMode) (construct : String) :
    ∃ span?, (last? = none → span? = none) ∧
      (∀ t ∈ last?, ∃ s, t.span mode = .ok s ∧ span? = some (.empty s.stop)) ∧
      endFault ⟨[], last?⟩ mode construct = .parse (.unexpectedEnd construct span?) := by
  cases last? with
  | none => exact ⟨none, fun _ => rfl, nofun, rfl⟩
  | some t =>
    obtain ⟨p, hp⟩ := h t rfl
    refine ⟨_, nofun, ?_, endFault_eq hp mode construct⟩
    rintro _ ⟨⟩
    exact ⟨_, Token.span_eq hp mode, rfl⟩

/-- After any calls, a scan has those words and strings in front of the first closing delimiter
to give out that no call has taken: the next one is the first of them, and a drain gives out
all. Once a call has asked for more than there are, the delimiter has been taken from the
source, the scan has it, and no call changes anything; until then the delimiter is still to
come, and to ask for it is an error. If there is no delimiter, it is so for ever. Then a call
that asks for more words than there are meets the end of input, which is the same fault each
time and stands past the last token, and a drain goes through all that are left before. -/
theorem scan_history (construct : String) (mode : PositionMode) (source : TokenSource) :
    let scan : Scan := { construct, mode, source }
    (∀ before closing rest, source.rest = before ++ closing :: rest →
        (∀ l ∈ before, l.kind ≠ .blockEnd) → closing.kind = .blockEnd → ∀ calls,
        let s := scan.after calls
        let left := Scan.wordsLeft (wordsOf before) calls
        (s.call .next).1 = .word (.ok left.head?) ∧ (s.call .drain).1 = .words (.ok left) ∧
          (Scan.Exceeded (wordsOf before) calls →
            s.call .closing = (.closing (.ok closing.toToken), s) ∧ left = [] ∧
              s.source = ⟨rest, some closing.toToken⟩ ∧ ∀ c, (s.call c).2 = s) ∧
          (¬Scan.Exceeded (wordsOf before) calls →
            s.call .closing = (.closing (.error (.stillOpen construct)), s) ∧
              closing :: rest <:+ s.source.rest)) ∧
      ((∀ l ∈ source.rest, l.kind ≠ .blockEnd ∧ 0 ≤ l.line ∧ 0 ≤ l.column) →
        (∀ t ∈ source.last?, ∃ p, t.start = .ok p) →
        let final? := lastTaken source.rest source.last?
        ∃ span?, (final? = none → span? = none) ∧
          (∀ t ∈ final?, ∃ s, t.span mode = .ok s ∧ span? = some (.empty s.stop)) ∧ ∀ calls,
          let s := scan.after calls
          let left := Scan.wordsLeft (wordsOf source.rest) calls
          let fault : Fault := .parse (.unexpectedEnd construct span?)
          (s.call .next).1 = .word (left.head?.elim (.error fault) fun t => .ok (some t)) ∧
            (s.call .drain).1 = .words (.error fault) ∧
            (∃ s', s.Yields left s' ∧ s'.next = (.error fault, (s.call .drain).2)) ∧
            s.call .closing = (.closing (.error (.stillOpen construct)), s)) := by
  obtain ⟨lexemes, last?⟩ := source
  intro scan
  constructor
  · rintro before closing rest rfl hb hc calls s left
    replace hb : ∀ l ∈ before, l.toToken.role ≠ .closing :=
      fun l hl => mt Token.role_eq_closing.mp (hb l hl)
    let final : Scan :=
      ⟨construct, mode, ⟨rest, some closing.toToken⟩, some closing.toToken⟩
    have hfinal : final.Meets (.ok ()) final := rfl
    have he : Scan.Meets ⟨construct, mode, ⟨closing :: rest, lastTaken before last?⟩, none⟩
        (.ok ()) final := by
      rw [Scan.Meets, Scan.next_cons, Token.role_eq_closing.mpr hc]
      rfl
    obtain ⟨s', hyields, hmeets⟩ := Scan.exists_yields_after hb he hfinal calls
    have hnext : s.next.1 = .ok left.head? := by
      rw [hyields.next_fst hmeets]
      cases left.head? <;> rfl
    refine ⟨congrArg Scan.Answer.word hnext, ?_, fun hex => ?_, fun hex => ?_⟩
    · rw [Scan.call_drain (hyields.drain hmeets)]
      rfl
    · obtain hs : s = final :=
        (Scan.after_cases hb he hfinal calls).elim And.right fun h => absurd hex h.1
      rw [hs]
      exact ⟨rfl, Scan.wordsLeft_of_exceeded hex, rfl, hfinal.call⟩
    · obtain ⟨-, passed, behind, -, -, hs⟩ :=
        (Scan.after_cases hb he hfinal calls).resolve_left fun h => hex h.1
      rw [show s = _ from hs]
      exact ⟨rfl, List.suffix_append behind (closing :: rest)⟩
  · intro hls hlast final?
    obtain ⟨span?, hnone, hsome, hfault⟩ := TokenSource.exists_endFault
      (exists_start_of_lastTaken (fun l hl => (hls l hl).2) hlast) mode construct
    refine ⟨span?, hnone, hsome, fun calls => ?_⟩
    intro s left fault
    replace hls : ∀ l ∈ lexemes, l.toToken.role ≠ .closing :=
      fun l hl => mt Token.role_eq_closing.mp (hls l hl).1
    have hfinal : Scan.Meets ⟨construct, mode, ⟨[], final?⟩, none⟩ (.error fault)
        ⟨construct, mode, ⟨[], final?⟩, none⟩ :=
      congrArg (fun fault => (Except.error fault, _)) hfault
    have hs : s = Scan.after ⟨construct, mode, ⟨lexemes ++ [], last?⟩, none⟩ calls := by
      rw [List.append_nil]
    obtain ⟨s', hyields, hmeets⟩ := Scan.exists_yields_after hls hfinal hfinal calls
    rw [← hs] at hyields
    rw [Scan.call_drain (hyields.drain hmeets)]
    refine ⟨congrArg Scan.Answer.word (hyields.next_fst hmeets), rfl, ⟨s', hyields, hmeets⟩, ?_⟩
    -- no call has found a delimiter, whichever end the scan is at
    obtain ⟨-, h⟩ | ⟨-, _, _, -, -, h⟩ := Scan.after_cases hls hfinal hfinal calls
    all_goals
      rw [hs, h]
      rfl

theorem scan_history_both_ends :
    let word : Lexeme := ⟨.symbol, "a", 0, 3⟩
    let literal : Lexeme := ⟨.string, "b", 1, 0⟩
    let closing : Lexeme := ⟨.blockEnd, "%\x7d", 1, 4⟩
    let scan (rest : List Lexeme) : Scan := ⟨"include", .naive, { rest }, none⟩
    let tag := scan [word, literal, closing, word]
    let openTag := scan [word, literal]
    let calls : List Scan.Call := [.next, .closing, .next, .next]
    Scan.Exceeded (wordsOf [word, literal]) calls ∧
      ((tag.after (calls.take 2)).call .drain).1 = .words (.ok [literal.toToken]) ∧
      (tag.after calls).call .closing = (.closing (.ok closing.toToken), tag.after calls) ∧
      ((openTag.after (calls.take 2)).call .next).1 = .word (.ok (some literal.toToken)) ∧
      ∃ s, literal.toToken.span .naive = .ok s ∧ ((openTag.after [.drain]).call .next).1 =
        .word (.error (.parse (.unexpectedEnd "include" (some (.empty s.stop))))) := by
  intro word literal closing scan tag openTag calls
  obtain ⟨hclosing, -⟩ := scan_history "include" .naive { rest := [word, literal, closing, word] }
  have htag := hclosing [word, literal] closing [word] rfl (by decide) rfl
  obtain ⟨-, hend⟩ := scan_history "include" .naive { rest := [word, literal] }
  obtain ⟨span?, -, hspan, hopen⟩ := hend (by decide) nofun
  obtain ⟨s, hs, rfl⟩ := hspan literal.toToken rfl
  have hex : Scan.Exceeded (wordsOf [word, literal]) calls := .inr (by decide)
  exact ⟨hex, (htag (calls.take 2)).2.1, ((htag calls).2.2.1 hex).1, (hopen (calls.take 2)).1,
    s, hs, (hopen [.drain]).1⟩

end TemplateTree
