import TemplateTree.Token.Source

/-!
# Scans

A scan gives out the words and strings of one directive from a source that it
shares with what comes after: it takes tokens up to and including the closing
delimiter, which it keeps, and none beyond.
-/

namespace TemplateTree

structure Scan where
  construct : String
  mode : PositionMode
  source : TokenSource
  closing? : Option Token := none
  deriving DecidableEq, Repr

namespace Scan

/-- The next word or string, `none` once the closing delimiter is reached. -/
def next (s : Scan) : Except Fault (Option Token) × Scan :=
  match s.closing? with
  | some _ => (.ok none, s)
  | none => go s.source.last? s.source.rest
where
  go (last? : Option Token) : List Lexeme → Except Fault (Option Token) × Scan
    | [] =>
      let source : TokenSource := ⟨[], last?⟩
      (.error (source.endFault s.mode s.construct), { s with source })
    | lexeme :: rest =>
      let token := lexeme.toToken
      let source : TokenSource := ⟨rest, some token⟩
      match token.role with
      | .closing => (.ok none, { s with source, closing? := some token })
      | .word => (.ok (some token), { s with source })
      | .passedOver => go (some token) rest

theorem length_rest_go_lt {s s' : Scan} {last? : Option Token} {lexemes : List Lexeme}
    {token : Token} (h : next.go s last? lexemes = (.ok (some token), s')) :
    s'.source.rest.length < lexemes.length := by
  induction lexemes generalizing last? with
  | nil => simp [next.go] at h
  | cons lexeme rest ih =>
    simp only [next.go] at h
    split at h
    · cases h
    · cases h; simp
    · exact Nat.lt_succ_of_lt (ih h)

theorem length_rest_next_lt {s s' : Scan} {token : Token}
    (h : s.next = (.ok (some token), s')) :
    s'.source.rest.length < s.source.rest.length := by
  unfold next at h
  split at h
  · cases h
  · exact length_rest_go_lt h

/-- All words and strings that are left, or the fault met on the way to the
closing delimiter. -/
def drain (s : Scan) : Except Fault (List Token) × Scan :=
  go [] s
where
  go (read : List Token) (s : Scan) : Except Fault (List Token) × Scan :=
    match _h : s.next with
    | (.ok (some token), s') => go (token :: read) s'
    | (.ok none, s') => (.ok read.reverse, s')
    | (.error fault, s') => (.error fault, s')
  termination_by s.source.rest.length
  decreasing_by exact length_rest_next_lt _h

/-- The closing delimiter, once it has been reached. -/
def closing (s : Scan) : Except Fault Token :=
  match s.closing? with
  | some token => .ok token
  | none => .error (.stillOpen s.construct)

end Scan

end TemplateTree
