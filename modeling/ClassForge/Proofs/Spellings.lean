import ClassForge.Proofs.Words

set_option autoImplicit false

namespace ClassForge

variable {c : Char}

namespace Token

theorem escapeChar_cases (c : Char) :
    (∃ letter, escapeChar c = ['\\', letter] ∧ letter ≠ '\n' ∧ escaped letter = c) ∨
      escapeChar c = [c] ∧ c ≠ '"' ∧ c ≠ '\\' ∧ c ≠ '\'' := by
  unfold escapeChar
  split
  case h_8 => exact .inr ⟨rfl, by assumption, by assumption, by assumption⟩
  all_goals exact .inl ⟨_, rfl, by decide, rfl⟩

theorem unescape_cons (plain : c ≠ '\\') (cs : List Char) : unescape (c :: cs) = c :: unescape cs := by
  rw [unescape]
  rintro _ _ rfl
  exact absurd rfl plain

theorem unescape_escape (cs : List Char) : unescape (escape cs) = cs := by
  induction cs with
  | nil => rfl
  | cons c cs ih =>
    have split : escape (c :: cs) = escapeChar c ++ escape cs := rfl
    obtain ⟨letter, written, -, meant⟩ | ⟨written, -, plain, -⟩ := escapeChar_cases c
    · rw [split, written]
      simp [unescape, meant, ih]
    · rw [split, written, List.singleton_append, unescape_cons plain, ih]

end Token

variable {rest cs : List Char} {test : Char → Bool} {kind : TokenKind}

namespace Lexeme

section Classes

variable {c : Char} {cs rest : List Char}

-- No class of characters that start a token has a blank or the start of a comment in it.
theorem not_blank (member : test c = true)
    (apart : [' ', '\t', '\r', '\n', '\x0c', '#'].any test = false) : isBlank c = false ∧ c ≠ '#' := by
  have other (b : Char) (among : b ∈ [' ', '\t', '\r', '\n', '\x0c', '#']) : c ≠ b := by
    rintro rfl
    exact List.any_eq_false.1 apart _ among member
  refine ⟨?_, other '#' (by simp)⟩
  simp [isBlank, other]

theorem longest_word (start : isWordStart c = true) (cs : List Char) :
    longest c cs = (.token .identifier, run isWordPart cs) := by
  obtain ⟨blank, comment⟩ := not_blank start rfl
  simp [longest, blank, comment, start]

theorem longest_digit (digit : c.isDigit = true) (cs : List Char) :
    longest c cs = (.token (number cs).1, (number cs).2) := by
  obtain ⟨blank, comment⟩ := not_blank digit rfl
  have word : isWordStart c = false := by
    have low : c.val ≤ 57 := by
      simp only [Char.isDigit, Bool.and_eq_true, decide_eq_true_eq] at digit
      exact digit.2
    have upper : c.isUpper = false := decide_eq_false fun h => absurd (UInt32.le_trans h.1 low) (by decide)
    have lower : c.isLower = false := by
      simp only [Char.isLower, Bool.and_eq_false_iff, decide_eq_false_iff_not]
      exact .inl fun h => absurd (UInt32.le_trans h low) (by decide)
    have underscore : c ≠ '_' := by
      rintro rfl
      cases digit
    simp [isWordStart, Char.isAlpha, upper, lower, underscore]
  simp [longest, blank, comment, word, digit]

theorem longest_operator (operator : isOperatorChar c = true) (cs : List Char) :
    longest c cs = (.token .operator, run isOperatorChar cs) := by
  obtain ⟨blank, comment⟩ := not_blank operator rfl
  have known : isWordStart c = false ∧ c.isDigit = false := by
    simp [isOperatorChar] at operator
    rcases operator with rfl | rfl | rfl | rfl | rfl | rfl | rfl | rfl | rfl | rfl | rfl | rfl | rfl <;> decide
  simp [longest, blank, comment, known, operator]

theorem longest_mark (mark : IsMark c) (cs : List Char) (silent : c = '\'' → charRest cs = none) :
    longest c cs = (.token .punctuation, 0) := by
  simp only [longest, mark.blank, mark.word, mark.digit, mark.operator, if_neg mark.comment, if_neg mark.quote,
    Bool.false_eq_true, if_false]
  split_ifs with apostrophe
  · rw [silent apostrophe]
  · rfl

end Classes

theorem stringRest_escape (count : Nat) (cs rest : List Char) :
    stringRest count (Token.escape cs ++ '"' :: rest) = (true, count + (Token.escape cs).length + 1) := by
  induction cs generalizing count with
  | nil => rfl
  | cons c cs ih =>
    have split : Token.escape (c :: cs) = Token.escapeChar c ++ Token.escape cs := rfl
    obtain ⟨letter, written, plain, -⟩ | ⟨written, quote, backslash, -⟩ := Token.escapeChar_cases c
    · rw [split, written]
      simp [stringRest, plain, ih]
      omega
    · rw [split, written]
      simp [stringRest, ih, backslash]
      omega

theorem charRest_escape (c : Char) (rest : List Char) :
    charRest (Token.escapeChar c ++ '\'' :: rest) = some ((Token.escapeChar c).length + 1) := by
  obtain ⟨letter, written, plain, -⟩ | ⟨written, -, backslash, apostrophe⟩ := Token.escapeChar_cases c
  · rw [written]
    simp [charRest, plain]
  · rw [written]
    simp [charRest, backslash]

-- A text that starts with a token of the kind and goes on with the rest, from which the token takes nothing.
def Reads (kind : TokenKind) (word rest cs : List Char) : Prop :=
  ∃ c body, word = c :: body ∧ isBlank c = false ∧ longest c (body ++ rest) = (.token kind, body.length) ∧
    Token.contents kind word = cs

-- The blank after a spelling is in no class that could go on.
theorem stops (apart : ∀ x ∈ rest.head?, x = ' ') (blank : test ' ' = false) : ∀ x ∈ rest.head?, test x = false :=
  fun x member => apart x member ▸ blank

theorem number_front {digits : List Char} (digital : ∀ x ∈ digits, x.isDigit = true)
    (stop : ∀ x ∈ rest.head?, x.isDigit = false) :
    number (digits ++ rest) = ((number rest).1, digits.length + (number rest).2) := by
  have none : run Char.isDigit rest = 0 := @run_front Char.isDigit [] rest (by simp) stop
  unfold number
  simp only [run_front digital stop, List.drop_left, none, List.drop_zero]
  split
  case h_4 => split <;> simp [Nat.add_assoc]
  all_goals simp

theorem number_stop (apart : ∀ x ∈ rest.head?, x = ' ') : number rest = (.int, 0) := by
  cases rest with
  | nil => rfl
  | cons x rest =>
    obtain rfl := apart x rfl
    rfl

theorem number_fraction {part rest : List Char} (digital : ∀ x ∈ part, x.isDigit = true) :
    number ('.' :: (part ++ 'f' :: rest)) = (.float, part.length + 2) ∧
      ((∀ x ∈ rest.head?, x = ' ') → number ('.' :: (part ++ rest)) = (.double, part.length + 1)) := by
  have none (cs : List Char) : run Char.isDigit ('.' :: cs) = 0 := rfl
  constructor
  · have digits : run Char.isDigit (part ++ 'f' :: rest) = part.length := run_front digital (by simp)
    simp [number, none, digits]
  · intro apart
    have digits : run Char.isDigit (part ++ rest) = part.length := run_front digital (stops apart rfl)
    simp only [number, none, List.drop_zero, digits, List.drop_left]
    cases rest with
    | nil => simp
    | cons x rest =>
      obtain rfl := apart x rfl
      simp

theorem reads_number {body : List Char} (first : c.isDigit = true)
    (counted : number (body ++ rest) = (kind, body.length)) (kept : Token.contents kind (c :: body) = cs) :
    Reads kind (c :: body) rest cs :=
  ⟨c, body, rfl, (not_blank first rfl).1, by rw [longest_digit first, counted], kept⟩

theorem longest_quote (cs : List Char) :
    longest '"' cs = match stringRest 0 cs with
      | (true, count) => (.token .string, count)
      | (false, count) => (.openString, count) :=
  rfl

theorem longest_apostrophe (cs : List Char) :
    longest '\'' cs = match charRest cs with
      | some count => (.token .char, count)
      | none => (.token .punctuation, 0) :=
  rfl

end Lexeme

namespace Token

theorem reads_spelling {t : Token} (read : t.IsRead) {rest : List Char} (apart : ∀ x ∈ rest.head?, x = ' ')
    (silent : t.isPunct '\'' = true → Lexeme.charRest rest = none) :
    Lexeme.Reads t.kind t.spelling.toList rest t.text.toList := by
  obtain ⟨kind, text, column⟩ := t
  obtain ⟨cs, rfl⟩ : ∃ cs, text = String.ofList cs := ⟨text.toList, by simp⟩
  have dropped (c x : Char) (cs : List Char) : (c :: (cs ++ [x])).dropLast = c :: cs := by
    rw [← List.cons_append, List.dropLast_concat]
  have stop {test : Char → Bool} (blank : test ' ' = false) := Lexeme.stops apart blank
  simp only [IsRead, String.toList_ofList] at read ⊢
  cases read with
  | @word c cs start parts =>
    refine ⟨c, cs, by simp [spelling], (Lexeme.not_blank start rfl).1, ?_, by simp [spelling, contents]⟩
    rw [Lexeme.longest_word start, Lexeme.run_front parts (stop rfl)]
  | @symbol c cs all =>
    obtain ⟨first, others⟩ := List.forall_mem_cons.1 all
    refine ⟨c, cs, by simp [spelling], (Lexeme.not_blank first rfl).1, ?_, by simp [spelling, contents]⟩
    rw [Lexeme.longest_operator first, Lexeme.run_front others (stop rfl)]
  | text =>
    refine ⟨'"', escape cs ++ ['"'], by simp [spelling], rfl, ?_, by simp [spelling, contents, unescape_escape]⟩
    have closed := Lexeme.stringRest_escape 0 cs rest
    simp [Lexeme.longest_quote, closed]
  | letter c =>
    have alone : escape [c] = escapeChar c := List.append_nil _
    have kept := unescape_escape [c]
    have closed := Lexeme.charRest_escape c rest
    rw [alone] at kept
    refine ⟨'\'', escapeChar c ++ ['\''], by simp [spelling, alone], rfl, ?_, by simp [spelling, contents, alone, kept]⟩
    simp [Lexeme.longest_apostrophe, closed]
  | @mark c alone =>
    refine ⟨c, [], by simp [spelling], alone.blank, ?_, by simp [spelling, contents]⟩
    refine Lexeme.longest_mark alone rest fun apostrophe => silent ?_
    rw [apostrophe]
    rfl
  | @whole _ c cs integral first digits =>
    simp only [List.mem_cons, List.not_mem_nil, or_false] at integral
    rcases integral with rfl | rfl | rfl
    · rw [show spelling _ = String.ofList (c :: cs) from rfl, String.toList_ofList]
      refine Lexeme.reads_number first ?_ (List.takeWhile_eq_self_iff.2 (List.forall_mem_cons.2 ⟨first, digits⟩))
      rw [Lexeme.number_front digits (stop rfl), Lexeme.number_stop apart]
      rfl
    · rw [show (spelling _).toList = c :: (cs ++ ['s']) by simp [spelling]]
      refine Lexeme.reads_number first ?_ (dropped ..)
      rw [List.append_assoc, List.length_append]
      exact Lexeme.number_front digits (by simp)
    · rw [show (spelling _).toList = c :: (cs ++ ['l']) by simp [spelling]]
      refine Lexeme.reads_number first ?_ (dropped ..)
      rw [List.append_assoc, List.length_append]
      exact Lexeme.number_front digits (by simp)
  | @fraction _ c cs part fractional first digits after =>
    obtain ⟨float, double⟩ := @Lexeme.number_fraction part rest after
    simp only [List.mem_cons, List.not_mem_nil, or_false] at fractional
    rcases fractional with rfl | rfl
    · rw [show (spelling _).toList = c :: (cs ++ '.' :: part ++ ['f']) by simp [spelling]]
      refine Lexeme.reads_number first ?_ (dropped ..)
      rw [show cs ++ '.' :: part ++ ['f'] ++ rest = cs ++ '.' :: (part ++ 'f' :: rest) by simp,
        Lexeme.number_front digits (by simp), float]
      simp [Nat.add_assoc]
    · rw [show spelling _ = String.ofList (c :: (cs ++ '.' :: part)) from rfl, String.toList_ofList]
      refine Lexeme.reads_number first ?_ ?_
      · rw [List.append_assoc, List.cons_append, Lexeme.number_front digits (by simp), double apart]
        simp
      · simpa using @Lexeme.contents_double c cs part [] first digits after (by simp)

def kindText (t : Token) : TokenKind × String :=
  (t.kind, t.text)

def pieces : List Char → List (Except LexError (TokenKind × String))
  | [] => []
  | c :: cs =>
    let (lexeme, count) := Lexeme.longest c cs
    let taken := c :: cs.take count
    match lexeme with
    | .blank => pieces (cs.drop count)
    | .openString => .error (.unterminated (String.ofList taken)) :: pieces (cs.drop count)
    | .token kind => .ok (kind, String.ofList (contents kind taken)) :: pieces (cs.drop count)
termination_by cs => cs.length

theorem map_scanFrom (done : List (Except LexError Token)) (column : Nat) (cs : List Char) :
    (scanFrom done column cs).map (Except.map kindText) = done.reverse.map (Except.map kindText) ++ pieces cs := by
  fun_induction scanFrom done column cs with
  | case1 => simp [pieces]
  | case2 done column c cs count taken next cut ih => rw [ih, pieces, cut]
  | case3 done column c cs count taken next cut ih =>
    rw [ih, pieces, cut]
    simp [Except.map, taken]
  | case4 done column c cs count taken next kind token cut ih =>
    rw [ih, pieces, cut]
    simp [Except.map, kindText, token, taken]

theorem mapM_id_eq_ok {ε α : Type} {xs : List (Except ε α)} {ys : List α} : xs.mapM id = .ok ys ↔ xs = ys.map .ok := by
  induction xs generalizing ys with
  | nil => cases ys <;> simp [pure, Except.pure]
  | cons x xs ih =>
    rw [List.mapM_cons]
    cases ys with
    | nil => simp [bind_eq_ok]
    | cons y ys => simp [bind_eq_ok, ih]

theorem tokenize_iff_pieces {ps : List (TokenKind × String)} :
    (∃ tokens, tokenize cs = .ok tokens ∧ tokens.map kindText = ps) ↔ pieces cs = ps.map .ok := by
  have scanned : (scan cs).map (Except.map kindText) = pieces cs := map_scanFrom [] 1 cs
  rw [← scanned]
  simp only [tokenize, mapM_id_eq_ok]
  generalize scan cs = found
  constructor
  · rintro ⟨tokens, rfl, rfl⟩
    simp [Except.map]
  · intro same
    induction found generalizing ps with
    | nil => exact ⟨[], rfl, by simpa using same⟩
    | cons x found ih =>
      cases ps with
      | nil => cases same
      | cons p ps =>
        obtain ⟨first, rest⟩ := List.cons.inj same
        obtain ⟨tokens, rfl, rfl⟩ := ih rest
        cases x with
        | error e => cases first
        | ok t => exact ⟨t :: tokens, rfl, by cases first; rfl⟩

def StaysApart (t next : Token) : Prop :=
  ¬ (t.isPunct '\'' = true ∧ next.spelling.toList.head? = some '\'')

theorem pieces_of_reads {word : List Char} (reads : Lexeme.Reads kind word rest cs) :
    pieces (word ++ rest) = .ok (kind, String.ofList cs) :: pieces rest := by
  obtain ⟨c, body, rfl, -, longest, kept⟩ := reads
  rw [List.cons_append, pieces, longest]
  simp [kept]

theorem pieces_blank (visible : Lexeme.isBlank c = false) (cs : List Char) :
    pieces (' ' :: c :: cs) = pieces (c :: cs) := by
  have blank : Lexeme.longest ' ' (c :: cs) = (.blank, 0) := by
    simp [Lexeme.longest, Lexeme.run, visible, show Lexeme.isBlank ' ' = true from rfl]
  rw [pieces, blank]
  rfl

theorem IsRead.spelling_eq_cons {t : Token} (read : t.IsRead) :
    ∃ c body, t.spelling.toList = c :: body ∧ Lexeme.isBlank c = false := by
  obtain ⟨c, body, spelled, visible, -⟩ := @reads_spelling t read [] (by simp) fun _ => rfl
  exact ⟨c, body, spelled, visible⟩

-- The blank after a lone apostrophe and the apostrophe after that are taken for a literal, whatever comes next.
theorem pieces_apostrophes (cs : List Char) :
    ∃ more, pieces ('\'' :: ' ' :: '\'' :: cs) = .ok (.char, " ") :: more := by
  have literal : Lexeme.longest '\'' (' ' :: '\'' :: cs) = (.token .char, 2) := rfl
  rw [pieces, literal]
  exact ⟨_, rfl⟩

theorem pieces_text (number : Nat) {tokens : List Token} (read : ∀ t ∈ tokens, t.IsRead) :
    pieces (TokenLine.text { number, tokens }).toList = (tokens.map kindText).map .ok ↔ tokens.IsChain StaysApart := by
  induction tokens with
  | nil => simp [TokenLine.text, pieces]
  | cons t tokens ih =>
    obtain ⟨readFirst, readRest⟩ := List.forall_mem_cons.1 read
    cases tokens with
    | nil =>
      have alone := pieces_of_reads (@reads_spelling t readFirst [] (by simp) fun _ => rfl)
      simpa [TokenLine.text, kindText, show pieces [] = [] by rw [pieces]] using alone
    | cons next tokens =>
      have joined : (TokenLine.text { number, tokens := t :: next :: tokens }).toList =
          t.spelling.toList ++ ' ' :: (TokenLine.text { number, tokens := next :: tokens }).toList := by
        simp [TokenLine.text, String.intercalate_cons_cons]
      obtain ⟨c, body, spelled, visible⟩ := (List.forall_mem_cons.1 readRest).1.spelling_eq_cons
      obtain ⟨later, shown⟩ : ∃ later, (TokenLine.text { number, tokens := next :: tokens }).toList = c :: later := by
        cases tokens <;> simp [TokenLine.text, String.intercalate_cons_cons, spelled]
      rw [joined, List.isChain_cons_cons]
      by_cases apart : StaysApart t next
      · have silent (lone : t.isPunct '\'' = true) : Lexeme.charRest (' ' :: c :: later) = none := by
          have other : c ≠ '\'' := fun same => apart ⟨lone, by simp [spelled, same]⟩
          simp [Lexeme.charRest, other]
        have first := pieces_of_reads (@reads_spelling t readFirst (' ' :: c :: later) (by simp) silent)
        rw [shown, first, pieces_blank visible, ← shown, List.map_cons, List.map_cons, List.cons.injEq, ih readRest]
        simp [apart, kindText]
      · obtain ⟨lone, another⟩ := not_not.1 apart
        obtain ⟨kind, text⟩ : t.kind = .punctuation ∧ t.text = String.singleton '\'' := by simpa [isPunct] using lone
        obtain rfl : c = '\'' := by simpa [spelled] using another
        obtain ⟨more, literal⟩ := pieces_apostrophes later
        rw [shown, show t.spelling.toList = ['\''] by simp [spelling, kind, text], List.singleton_append, literal]
        simp [apart, kindText, kind]

-- The tokens of a line, printed with blanks between them, are read as tokens of the same kinds and texts
-- exactly where no lone apostrophe has another apostrophe right after it.
theorem tokenize_text {cs : List Char} {tokens : List Token} (accepted : tokenize cs = .ok tokens) (number : Nat) :
    (∃ again, tokenize (TokenLine.text { number, tokens }).toList = .ok again ∧
        again.map (fun t => (t.kind, t.text)) = tokens.map (fun t => (t.kind, t.text))) ↔
      tokens.IsChain fun t next => ¬ (t.isPunct '\'' = true ∧ next.spelling.toList.head? = some '\'') :=
  tokenize_iff_pieces.trans (pieces_text number (tokenize_read accepted))

theorem tokenize_text_literals : ∃ tokens again,
    tokenize "f(1s,2l+.5-3.f*4.d)'\\''#c# \"a\\\"\\n\"'b".toList = .ok tokens ∧
      TokenLine.text { number := 1, tokens } = "f ( 1s , 2l + . 5 - 3.f * 4. ) '\\'' \"a\\\"\\n\" ' b" ∧
      tokenize (TokenLine.text { number := 1, tokens }).toList = .ok again ∧
      again.map (fun t => (t.kind, t.text)) = tokens.map (fun t => (t.kind, t.text)) := by
  generalize written : "f(1s,2l+.5-3.f*4.d)'\\''#c# \"a\\\"\\n\"'b".toList = source
  have run : (tokenize source).toOption.map (fun tokens => (TokenLine.text { number := 1, tokens },
      decide (tokens.IsChain fun t next => ¬ (t.isPunct '\'' = true ∧ next.spelling.toList.head? = some '\'')))) =
      some ("f ( 1s , 2l + . 5 - 3.f * 4. ) '\\'' \"a\\\"\\n\" ' b", true) := by
    rw [← written]
    decide +kernel
  simp only [Option.map_eq_some_iff, toOption_eq_some, Prod.mk.injEq, decide_eq_true_eq] at run
  obtain ⟨tokens, accepted, text, apart⟩ := run
  obtain ⟨again, read, same⟩ := (tokenize_text accepted 1).2 apart
  exact ⟨tokens, again, accepted, text, read, same⟩

end Token

end ClassForge
