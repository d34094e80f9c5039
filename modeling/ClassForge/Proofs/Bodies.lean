import Mathlib
import ClassForge.Decl.Parse

set_option autoImplicit false

namespace ClassForge

open Text (SourcePath)

def openBlocks (lines : List TokenLine) (k : Nat) : Int :=
  let tokens := (lines.take k).flatMap (·.tokens)
  (tokens.countP (·.isPunct '{') : Int) - tokens.countP (·.isPunct '}')

-- The line after the first `k` closes what was open before them.
def ClosedAt (depth : Int) (lines : List TokenLine) (k : Nat) : Prop :=
  depth + openBlocks lines k = 0 ∧ ∃ line t, lines[k]? = some line ∧ line.tokens = [t] ∧ t.isPunct '}' = true

structure EndsAfter (depth : Int) (lines : List TokenLine) (k : Nat) : Prop where
  closed : ClosedAt depth lines k
  balanced : ∀ j ≤ k, 0 ≤ depth + openBlocks lines j
  first : ∀ j < k, ¬ ClosedAt depth lines j

variable {path : SourcePath} {start : Location} {depth : Int} {line : TokenLine}
  {done lines body rest : List TokenLine} {room k : Nat}

theorem isClosingBrace_iff : line.isClosingBrace = true ↔ ∃ t, line.tokens = [t] ∧ t.isPunct '}' = true := by
  unfold TokenLine.isClosingBrace
  match line.tokens with
  | [] => simp
  | [t] => simp
  | t :: u :: ts => simp

theorem openBlocks_cons (line : TokenLine) (lines : List TokenLine) (k : Nat) :
    openBlocks (line :: lines) (k + 1) = Grammar.braceBalance line.tokens + openBlocks lines k := by
  simp only [openBlocks, Grammar.braceBalance, List.take_succ_cons, List.flatMap_cons, List.countP_append]
  omega

theorem closedAt_zero : ClosedAt depth (line :: lines) 0 ↔ depth = 0 ∧ line.isClosingBrace = true := by
  rw [isClosingBrace_iff]
  simp [ClosedAt, openBlocks]

theorem closedAt_succ : ClosedAt depth (line :: lines) (k + 1) ↔
    ClosedAt (depth + Grammar.braceBalance line.tokens) lines k := by
  rw [ClosedAt, openBlocks_cons, ← add_assoc, List.getElem?_cons_succ, ClosedAt]

theorem endsAfter_zero (low : 0 ≤ depth) :
    EndsAfter depth (line :: lines) 0 ↔ depth = 0 ∧ line.isClosingBrace = true := by
  rw [← closedAt_zero]
  refine ⟨EndsAfter.closed, fun closed => ⟨closed, fun j le => ?_, by simp⟩⟩
  obtain rfl := Nat.le_zero.1 le
  simpa [openBlocks] using low

theorem endsAfter_succ (low : 0 ≤ depth) : EndsAfter depth (line :: lines) (k + 1) ↔
    ¬ (depth = 0 ∧ line.isClosingBrace = true) ∧ EndsAfter (depth + Grammar.braceBalance line.tokens) lines k := by
  constructor
  · rintro ⟨closed, balanced, first⟩
    refine ⟨fun here => first 0 (by omega) (closedAt_zero.2 here), closedAt_succ.1 closed, fun j le => ?_,
      fun j less => mt closedAt_succ.2 (first (j + 1) (by omega))⟩
    have := balanced (j + 1) (by omega)
    rwa [openBlocks_cons, ← add_assoc] at this
  · rintro ⟨inside, closed, balanced, first⟩
    refine ⟨closedAt_succ.2 closed, fun j le => ?_, fun j less => ?_⟩
    · cases j with
      | zero => simpa [openBlocks] using low
      | succ j =>
        rw [openBlocks_cons, ← add_assoc]
        exact balanced j (by omega)
    · cases j with
      | zero => exact mt closedAt_zero.1 inside
      | succ j => exact mt closedAt_succ.1 (first j (by omega))

-- The induction is on the lines that are left, with the blocks open before them.
theorem collectBody_eq_ok (low : 0 ≤ depth) :
    collectBody path start depth done room lines = .ok (body, rest) ↔
      ∃ k ≤ room, EndsAfter depth lines k ∧ body = done.reverse ++ lines.take k ∧ rest = lines.drop (k + 1) := by
  induction lines generalizing depth done room with
  | nil =>
    refine ⟨fun h => (by cases h), ?_⟩
    rintro ⟨k, -, ends, -⟩
    obtain ⟨_, _, _, found, -⟩ := ends.closed
    simp at found
  | cons line lines ih =>
    rw [collectBody]
    by_cases here : depth = 0 ∧ line.isClosingBrace = true
    · rw [if_pos here]
      constructor
      · intro h
        cases h
        exact ⟨0, Nat.zero_le _, (endsAfter_zero low).2 here, by simp, rfl⟩
      · rintro ⟨_ | k, -, ends, rfl, rfl⟩
        · simp
        · exact absurd here ((endsAfter_succ low).1 ends).1
    · rw [if_neg here]
      have later : (∃ k ≤ room, EndsAfter depth (line :: lines) k ∧ body = done.reverse ++ (line :: lines).take k ∧
          rest = (line :: lines).drop (k + 1)) ↔
          ∃ k < room, EndsAfter (depth + Grammar.braceBalance line.tokens) lines k ∧
            body = (line :: done).reverse ++ lines.take k ∧ rest = lines.drop (k + 1) := by
        constructor
        · rintro ⟨_ | k, le, ends, rfl, rfl⟩
          · exact absurd ((endsAfter_zero low).1 ends) here
          · exact ⟨k, le, ((endsAfter_succ low).1 ends).2, by simp, rfl⟩
        · rintro ⟨k, less, ends, rfl, rfl⟩
          exact ⟨k + 1, less, (endsAfter_succ low).2 ⟨here, ends⟩, by simp, rfl⟩
      rw [later]
      dsimp only
      split_ifs with under
      · refine ⟨fun h => (by cases h), ?_⟩
        rintro ⟨k, -, ends, -⟩
        have := ends.balanced 0 (Nat.zero_le _)
        simp only [openBlocks, List.take_zero, List.flatMap_nil, List.countP_nil] at this
        omega
      · cases room with
        | zero => exact ⟨fun h => (by cases h), fun ⟨_, less, _⟩ => absurd less (Nat.not_lt_zero _)⟩
        | succ room =>
          simp only [ih (Int.not_lt.1 under), Nat.lt_succ_iff]

def TokenLine.withoutText (line : TokenLine) : TokenLine :=
  { line with tokens := line.tokens.filter fun t => decide (t.kind ≠ .string ∧ t.kind ≠ .char) }

theorem openBlocks_withoutText (lines : List TokenLine) (k : Nat) :
    openBlocks (lines.map TokenLine.withoutText) k = openBlocks lines k := by
  have kept (p : Char) (ts : List Token) :
      (ts.filter fun t => decide (t.kind ≠ .string ∧ t.kind ≠ .char)).countP (·.isPunct p) =
        ts.countP (·.isPunct p) := by
    rw [List.countP_filter]
    refine List.countP_congr fun t _ => ?_
    simp only [Token.isPunct, Bool.and_eq_true, decide_eq_true_eq]
    refine ⟨fun both => both.1, fun punct => ⟨punct, ?_⟩⟩
    simp [punct.1]
  induction lines generalizing k with
  | nil => rfl
  | cons line lines ih =>
    cases k with
    | zero => rfl
    | succ k =>
      rw [List.map_cons, openBlocks_cons, openBlocks_cons, ih]
      simp only [Grammar.braceBalance, TokenLine.withoutText, kept]

theorem collectBody_ends (path : SourcePath) (start : Location) (lines body rest : List TokenLine) :
    (collectBody path start 0 [] maxBodyLines lines = .ok (body, rest) ↔
      ∃ k ≤ 100000, EndsAfter 0 lines k ∧ body = lines.take k ∧ rest = lines.drop (k + 1)) ∧
    ∀ k, openBlocks (lines.map TokenLine.withoutText) k = openBlocks lines k :=
  ⟨collectBody_eq_ok (Int.le_refl 0), openBlocks_withoutText lines⟩

end ClassForge
