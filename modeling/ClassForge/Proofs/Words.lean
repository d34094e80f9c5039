import ClassForge.Proofs.Steps

set_option autoImplicit false

namespace ClassForge

def IsWord (name : String) : Prop :=
  name.toList ≠ [] ∧ ∀ c ∈ name.toList, Lexeme.isWordPart c = true

variable {c : Char} {cs : List Char} {count : Nat}

namespace Lexeme

structure IsMark (c : Char) : Prop where
  blank : isBlank c = false
  comment : c ≠ '#'
  word : isWordStart c = false
  digit : c.isDigit = false
  operator : isOperatorChar c = false
  quote : c ≠ '"'

inductive Holds : TokenKind → List Char → Prop
  | word {c : Char} {cs : List Char} (start : isWordStart c = true) (parts : ∀ x ∈ cs, isWordPart x = true) :
    Holds .identifier (c :: cs)
  | whole {kind : TokenKind} {c : Char} {cs : List Char} (integral : kind ∈ [TokenKind.int, .short, .long])
    (first : c.isDigit = true) (digits : ∀ x ∈ cs, x.isDigit = true) : Holds kind (c :: cs)
  | fraction {kind : TokenKind} {c : Char} {cs part : List Char} (fractional : kind ∈ [TokenKind.float, .double])
    (first : c.isDigit = true) (digits : ∀ x ∈ cs, x.isDigit = true) (after : ∀ x ∈ part, x.isDigit = true) :
    Holds kind (c :: (cs ++ '.' :: part))
  | symbol {c : Char} {cs : List Char} (all : ∀ x ∈ c :: cs, isOperatorChar x = true) : Holds .operator (c :: cs)
  | text (cs : List Char) : Holds .string cs
  | letter (c : Char) : Holds .char [c]
  | mark {c : Char} (alone : IsMark c) : Holds .punctuation [c]

theorem isWordPart_of_isWordStart (start : isWordStart c = true) : isWordPart c = true := by
  simp only [isWordStart, isWordPart, Char.isAlphanum, Bool.or_eq_true, decide_eq_true_eq] at start ⊢
  tauto

theorem take_run (test : Char → Bool) (cs : List Char) : cs.take (run test cs) = cs.takeWhile test :=
  (List.prefix_iff_eq_take.1 (List.takeWhile_prefix test)).symm

theorem takeWhile_front {test : Char → Bool} {front rest : List Char} (all : ∀ x ∈ front, test x = true)
    (stop : ∀ x ∈ rest.head?, test x = false) : (front ++ rest).takeWhile test = front := by
  rw [List.takeWhile_append_of_pos all]
  cases rest with
  | nil => simp
  | cons x rest => simp [stop x rfl]

theorem run_front {test : Char → Bool} {front rest : List Char} (all : ∀ x ∈ front, test x = true)
    (stop : ∀ x ∈ rest.head?, test x = false) : run test (front ++ rest) = front.length := by
  rw [run, takeWhile_front all stop]

theorem exists_run (test : Char → Bool) (cs : List Char) :
    ∃ front rest, cs = front ++ rest ∧ (∀ x ∈ front, test x = true) ∧ ∀ x ∈ rest.head?, test x = false := by
  refine ⟨cs.takeWhile test, cs.dropWhile test, (List.takeWhile_append_dropWhile ..).symm,
    fun x => List.mem_takeWhile_imp, fun x first => ?_⟩
  have stops := List.head?_dropWhile_not test cs
  rwa [Option.mem_def.1 first] at stops

theorem contents_double {c : Char} {digits part rest : List Char} (first : c.isDigit = true)
    (digital : ∀ x ∈ digits, x.isDigit = true) (after : ∀ x ∈ part, x.isDigit = true)
    (ends : ∀ x ∈ rest.head?, x = 'd') :
    Token.contents .double (c :: (digits ++ '.' :: part) ++ rest) = c :: (digits ++ '.' :: part) := by
  have other {x : Char} (digit : x.isDigit = true) : decide (x ≠ 'd') = true := by
    refine decide_eq_true ?_
    rintro rfl
    cases digit
  refine takeWhile_front (fun x member => ?_) fun x member => by simp [ends x member]
  simp only [List.mem_cons, List.mem_append] at member
  rcases member with rfl | member | rfl | member
  · exact other first
  · exact other (digital x member)
  · rfl
  · exact other (after x member)

theorem number_holds (first : c.isDigit = true) (cs : List Char) :
    Holds (number cs).1 (Token.contents (number cs).1 (c :: cs.take (number cs).2)) := by
  obtain ⟨digits, rest, rfl, digital, stop⟩ := exists_run Char.isDigit cs
  have whole (kind : TokenKind) (suffix : List Char) (integral : kind ∈ [TokenKind.int, .short, .long])
      (kept : Token.contents kind (c :: digits ++ suffix) = c :: digits) :
      Holds kind (Token.contents kind (c :: (digits ++ suffix))) :=
    kept ▸ .whole integral first digital
  have int {suffix : List Char} (stop : ∀ x ∈ suffix.head?, x.isDigit = false) :=
    takeWhile_front (List.forall_mem_cons.2 ⟨first, digital⟩) stop
  unfold number
  simp only [run_front digital stop, List.drop_left]
  split
  case h_1 => simpa [List.take_length_add_append] using whole .int ['i'] (by simp) (int stop)
  case h_2 => simpa [List.take_length_add_append] using whole .short ['s'] (by simp) (List.dropLast_concat ..)
  case h_3 => simpa [List.take_length_add_append] using whole .long ['l'] (by simp) (List.dropLast_concat ..)
  case h_5 => simpa [List.take_length_add_append] using whole .int [] (by simp) (int (by simp))
  case h_4 fraction =>
    obtain ⟨part, rest, rfl, after, stopPart⟩ := exists_run Char.isDigit fraction
    have fraction (kind : TokenKind) (suffix : List Char) (fractional : kind ∈ [TokenKind.float, .double])
        (kept : Token.contents kind (c :: (digits ++ '.' :: part) ++ suffix) = c :: (digits ++ '.' :: part)) :
        Holds kind (Token.contents kind (c :: (digits ++ '.' :: (part ++ suffix)))) := by
      rw [show c :: (digits ++ '.' :: (part ++ suffix)) = c :: (digits ++ '.' :: part) ++ suffix by simp, kept]
      exact .fraction fractional first digital after
    have double {suffix : List Char} := @contents_double c digits part suffix first digital after
    simp only [run_front after stopPart, List.drop_left]
    split
    · simpa [Nat.add_assoc, List.take_length_add_append] using fraction .float ['f'] (by simp) (List.dropLast_concat ..)
    · simpa [Nat.add_assoc, List.take_length_add_append] using fraction .double ['d'] (by simp) (double (by simp))
    · simpa [Nat.add_assoc, List.take_length_add_append] using fraction .double [] (by simp) (double (by simp))

theorem charRest_holds (h : charRest cs = some count) (c : Char) :
    Holds .char (Token.contents .char (c :: cs.take count)) := by
  unfold charRest at h
  split at h
  next x _ =>
    split_ifs at h
    cases h
    exact .letter (Token.escaped x)
  next => cases h
  next => cases h
  next x _ _ _ _ =>
    cases h
    have single : Token.unescape [x] = [x] := by simp [Token.unescape]
    change Holds .char (Token.unescape [x])
    rw [single]
    exact .letter x
  next => cases h

theorem longest_holds {kind : TokenKind}
    (h : longest c cs = (.token kind, count)) : Holds kind (Token.contents kind (c :: cs.take count)) := by
  unfold longest at h
  split_ifs at h with blank comment word digit operator string apostrophe
  · cases h
  · cases h
  · cases h
    rw [take_run]
    exact .word word fun x => List.mem_takeWhile_imp
  · cases h
    exact number_holds digit cs
  · cases h
    rw [take_run]
    exact .symbol (List.forall_mem_cons.2 ⟨operator, fun x => List.mem_takeWhile_imp⟩)
  · split at h <;> cases h
    exact .text _
  all_goals
    have mark : IsMark c :=
      ⟨by simpa using blank, comment, by simpa using word, by simpa using digit, by simpa using operator, string⟩
  · split at h <;> cases h
    next found => exact charRest_holds found c
    next => exact .mark mark
  · cases h
    exact .mark mark

end Lexeme

def Token.IsRead (t : Token) : Prop :=
  Lexeme.Holds t.kind t.text.toList

theorem Token.IsRead.isWord {t : Token} (read : t.IsRead) (identifier : t.isIdentifier = true) : IsWord t.text := by
  have kind : t.kind = .identifier := by simpa [isIdentifier] using identifier
  unfold IsRead at read
  generalize held : t.text.toList = cs at read
  rw [kind] at read
  cases read with
  | word start parts =>
    rw [IsWord, held]
    exact ⟨by simp, List.forall_mem_cons.2 ⟨Lexeme.isWordPart_of_isWordStart start, parts⟩⟩
  | whole integral => simp at integral
  | fraction fractional => simp at fractional

theorem Token.scanFrom_read (done : List (Except LexError Token)) (column : Nat) (cs : List Char)
    (known : ∀ t, .ok t ∈ done → t.IsRead) : ∀ t, .ok t ∈ scanFrom done column cs → t.IsRead := by
  fun_induction scanFrom done column cs with
  | case1 => simpa using known
  | case2 done column c cs count taken next cut ih => exact ih known
  | case3 done column c cs count taken next cut ih => exact ih (by simpa using known)
  | case4 done column c cs count taken next kind token cut ih =>
    refine ih fun t member => ?_
    rcases List.mem_cons.1 member with same | old
    · cases same
      simpa only [IsRead, token, String.toList_ofList] using Lexeme.longest_holds cut
    · exact known t old

theorem Token.tokenize_read {ts : List Token} (h : tokenize cs = .ok ts) : ∀ t ∈ ts, t.IsRead := by
  intro t member
  obtain ⟨read, among, same⟩ := exists_of_mapM_eq_ok h member
  exact scanFrom_read [] 1 cs (by simp) t (same ▸ among)

variable {lines : List TokenLine} {path : Text.SourcePath}

namespace TokenLine

def AllRead (lines : List TokenLine) : Prop :=
  ∀ line ∈ lines, ∀ t ∈ line.tokens, t.IsRead

theorem AllRead.subset {rest : List TokenLine} (read : AllRead lines) (fewer : rest ⊆ lines) :
    AllRead rest :=
  fun line member => read line (fewer member)

theorem ofLines_read {done : List TokenLine} {number : Nat} {texts : List (List Char)} (known : AllRead done)
    (h : ofLines path done number texts = .ok lines) : AllRead lines := by
  induction texts generalizing done number with
  | nil =>
    simp only [ofLines, Except.ok.injEq] at h
    subst h
    exact fun line member => known line (List.mem_reverse.1 member)
  | cons cs rest ih =>
    unfold ofLines at h
    split at h
    next => cases h
    next => exact ih known h
    next tokens _ read =>
      exact ih (List.forall_mem_cons.2 ⟨Token.tokenize_read read, known⟩) h

theorem ofSource_read {source : String} (h : ofSource path source = .ok lines) : AllRead lines :=
  ofLines_read (by simp [AllRead]) h

end TokenLine

end ClassForge
