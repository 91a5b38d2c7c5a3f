import Scriptlet.Token.Scan

namespace Scriptlet

/-- Whether the text of a token is what spells it. -/
def Token.Kind.isPlain (k : Token.Kind) : Bool :=
  k != .string && k != .number && k != .eof

namespace Proofs.LexicalGrammar
open Scriptlet.Text Scriptlet.Token

/-- A run of characters of one sort that ends with the text or before a character of another sort. -/
structure Run (sort : Char → Bool) (w rest : List Char) : Prop where
  inside : ∀ c ∈ w, sort c = true
  longest : ∀ c cs, rest = c :: cs → sort c = false

/-- What a number has to be without its underscores: digits, with at most one point. -/
structure IsNumeral (w : List Char) : Prop where
  digit : ∃ c ∈ w, Decimal.isDigit c = true
  point : w.count '.' ≤ 1

/-- The pieces that stand in front of `rest`. How a piece begins decides what it is: a slash before a
star opens a comment and is no symbol. -/
inductive Leads : Piece → List Char → Prop where
  | blank {c : Char} {rest : List Char} (hc : c ∈ [' ', '\t', '\n', '\r']) : Leads ⟨[c], none⟩ rest
  | comment {body rest : List Char} (hfirst : ¬['*', '/'] <:+: body) :
      Leads ⟨'/' :: '*' :: (body ++ ['*', '/']), none⟩ rest
  | string {body rest : List Char} (hfirst : '"' ∉ body) :
      Leads ⟨'"' :: (body ++ ['"']), some (.string, String.ofList body)⟩ rest
  | number {c : Char} {w rest : List Char} (hc : isNumberStart c = true)
      (hw : Run isNumberChar (c :: w) rest) (hn : IsNumeral ((c :: w).filter (· ≠ '_'))) :
      Leads ⟨c :: w, some (.number, String.ofList ((c :: w).filter (· ≠ '_')))⟩ rest
  | word {c : Char} {w rest : List Char} (hw : Run isCased (c :: w) rest) :
      Leads ⟨c :: w, some ((Kind.ofWord? (String.ofList (c :: w))).getD .identifier,
        String.ofList (c :: w))⟩ rest
  | symbol {c : Char} {k : Kind} {rest : List Char} (hc : Kind.ofSymbol? c = some k)
      (hslash : ¬(c = '/' ∧ ∃ cs, rest = '*' :: cs)) :
      Leads ⟨[c], some (k, String.singleton c)⟩ rest

/-- Why a text begins with no piece. -/
inductive Blocked : List Char → ScanCause → Prop where
  | comment {rest : List Char} (hopen : ¬['*', '/'] <:+: rest) :
      Blocked ('/' :: '*' :: rest) .unterminatedComment
  | string {rest : List Char} (hopen : '"' ∉ rest) : Blocked ('"' :: rest) .unterminatedString
  | number {c : Char} {w rest : List Char} (hc : isNumberStart c = true)
      (hw : Run isNumberChar (c :: w) rest) (hn : ¬IsNumeral ((c :: w).filter (· ≠ '_'))) :
      Blocked (c :: w ++ rest) (.malformedNumber (String.ofList ((c :: w).filter (· ≠ '_'))))
  | character {c : Char} {rest : List Char} (hblank : c ∉ [' ', '\t', '\n', '\r']) (hquote : c ≠ '"')
      (hnumber : isNumberStart c = false) (hcased : isCased c = false)
      (hsymbol : Kind.ofSymbol? c = none) : Blocked (c :: rest) (.unknownCharacter c)

/-- A text cut from left to right into pieces, up to what is left. -/
inductive Cuts : List Char → List Piece → List Char → Prop where
  | done (rest : List Char) : Cuts rest [] rest
  | piece {p : Piece} {text rest : List Char} {pieces : List Piece} (hp : Leads p text)
      (h : Cuts text pieces rest) : Cuts (p.lexeme ++ text) (p :: pieces) rest

/-- The characters of some pieces. -/
def lexemes (pieces : List Piece) : List Char :=
  pieces.flatMap Piece.lexeme

@[simp]
theorem lexemes_nil : lexemes [] = [] := rfl

@[simp]
theorem lexemes_cons (piece : Piece) (pieces : List Piece) :
    lexemes (piece :: pieces) = piece.lexeme ++ lexemes pieces := rfl

@[simp]
theorem lexemes_append (ps qs : List Piece) : lexemes (ps ++ qs) = lexemes ps ++ lexemes qs :=
  List.flatMap_append

/-- The token of a piece at a place, if it gives one. -/
def tokenAt (p : Position) (piece : Piece) : List Token :=
  (piece.token?.map fun s => Token.mk s.1 s.2 p).toList

/-- The tokens of pieces that begin at `p`. -/
def tokensAt (p : Position) : List Piece → List Token
  | [] => []
  | piece :: pieces => tokenAt p piece ++ tokensAt (p.after piece.lexeme) pieces

section Characters

theorem isSpace_iff {c : Char} : isSpace c = true ↔ c ∈ [' ', '\t', '\n', '\r'] := by
  simp [isSpace, or_assoc]

theorem le_of_isCased {c : Char} (h : isCased c = true) : 65 ≤ c.toNat := by
  have hlow : ∀ r ∈ casedRanges, 65 ≤ r.1 := by decide +kernel
  obtain ⟨r, hr, hc⟩ := List.any_eq_true.mp h
  have hle := hlow r hr
  simp only [Bool.and_eq_true, decide_eq_true_eq] at hc
  omega

/-- The first character decides the sort of a piece, and the sorts do not overlap. -/
theorem isCased_sort {c : Char} (h : isCased c = true) :
    isSpace c = false ∧ c ≠ '/' ∧ c ≠ '"' ∧ isNumberStart c = false := by
  have hle := le_of_isCased h
  refine ⟨?_, ?_, ?_, ?_⟩
  · rw [Bool.eq_false_iff]
    intro hspace
    simp only [isSpace, Bool.or_eq_true, beq_iff_eq] at hspace
    rcases hspace with ((rfl | rfl) | rfl) | rfl <;> exact absurd hle (by decide)
  · rintro rfl
    exact absurd hle (by decide)
  · rintro rfl
    exact absurd hle (by decide)
  · rw [Bool.eq_false_iff]
    intro hnumber
    simp only [isNumberStart, Decimal.isDigit, Bool.or_eq_true, Bool.and_eq_true, decide_eq_true_eq,
      beq_iff_eq] at hnumber
    rcases hnumber with ⟨_, hnine⟩ | rfl
    · have hnat : c.toNat ≤ '9'.toNat := hnine
      have hchar : '9'.toNat = 57 := rfl
      omega
    · exact absurd h (by decide)

theorem isNumberStart_sort {c : Char} (h : isNumberStart c = true) :
    isSpace c = false ∧ c ≠ '/' ∧ c ≠ '"' := by
  refine ⟨?_, ?_, ?_⟩
  · rw [Bool.eq_false_iff]
    intro hspace
    simp only [isSpace, Bool.or_eq_true, beq_iff_eq] at hspace
    rcases hspace with ((rfl | rfl) | rfl) | rfl <;> exact absurd h (by decide)
  · rintro rfl
    exact absurd h (by decide)
  · rintro rfl
    exact absurd h (by decide)

theorem ofSymbol_sort {c : Char} {k : Kind} (h : Kind.ofSymbol? c = some k) :
    isSpace c = false ∧ c ≠ '"' ∧ isNumberStart c = false ∧ isCased c = false ∧ k.isPlain = true := by
  unfold Kind.ofSymbol? at h
  split at h
  all_goals first
    | contradiction
    | obtain rfl := Option.some.inj h
      decide

theorem ofSymbol_plain {c : Char} {k : Kind} (h : Kind.ofSymbol? c = some k) : k.isPlain = true :=
  (ofSymbol_sort h).2.2.2.2

theorem ofWord_plain (s : String) : ((Kind.ofWord? s).getD .identifier).isPlain = true := by
  unfold Kind.ofWord?
  repeat' split
  all_goals rfl

theorem isPlain_ne_string {k : Kind} (h : k.isPlain = true) : k ≠ .string := by
  rintro rfl
  cases h

theorem isPlain_ne_eof {k : Kind} (h : k.isPlain = true) : k ≠ .eof := by
  rintro rfl
  cases h

theorem isNumberChar_of_start {c : Char} (h : isNumberStart c = true) : isNumberChar c = true := by
  simp only [isNumberStart, isNumberChar, Bool.or_eq_true] at h ⊢
  rcases h with h | h
  · exact .inl (.inl h)
  · exact .inr h

end Characters

section Runs

variable {sort : Char → Bool} {w rest : List Char}

theorem Run.takeWhile (h : Run sort w rest) : (w ++ rest).takeWhile sort = w := by
  rw [List.takeWhile_append_of_pos h.inside]
  cases rest with
  | nil => exact List.append_nil w
  | cons c cs =>
    rw [List.takeWhile_cons_of_neg (by simp [h.longest c cs rfl]), List.append_nil]

theorem Run.dropWhile (h : Run sort w rest) : (w ++ rest).dropWhile sort = rest := by
  rw [List.dropWhile_append_of_pos h.inside]
  cases rest with
  | nil => rfl
  | cons c cs => rw [List.dropWhile_cons_of_neg (by simp [h.longest c cs rfl])]

/-- Every text begins with the longest run of each sort. -/
theorem run_front (sort : Char → Bool) (cs : List Char) : ∃ w rest, cs = w ++ rest ∧ Run sort w rest := by
  induction cs with
  | nil => exact ⟨[], [], rfl, ⟨fun _ h => (nomatch h), fun _ _ h => (nomatch h)⟩⟩
  | cons c cs ih =>
    by_cases hc : sort c = true
    · obtain ⟨w, rest, rfl, hinside, hlongest⟩ := ih
      exact ⟨c :: w, rest, rfl, List.forall_mem_cons.mpr ⟨hc, hinside⟩, hlongest⟩
    · refine ⟨[], c :: cs, rfl, ⟨fun _ h => (nomatch h), ?_⟩⟩
      rintro _ _ ⟨⟩
      exact Bool.eq_false_iff.mpr hc

/-- A run whose first character is of its sort has that character. -/
theorem run_cons {c : Char} (hc : sort c = true) (cs : List Char) :
    ∃ w rest, cs = w ++ rest ∧ Run sort (c :: w) rest := by
  obtain ⟨w, rest, rfl, hinside, hlongest⟩ := run_front sort cs
  exact ⟨w, rest, rfl, List.forall_mem_cons.mpr ⟨hc, hinside⟩, hlongest⟩

end Runs

section Numerals

/-- Only digits and points, as in a number without its underscores. -/
def Plain (w : List Char) : Prop :=
  ∀ c ∈ w, Decimal.isDigit c = true ∨ c = '.'

theorem plain_filter {w : List Char} (h : ∀ c ∈ w, isNumberChar c = true) : Plain (w.filter (· ≠ '_')) := by
  intro c hc
  obtain ⟨hmem, hne⟩ := List.mem_filter.mp hc
  have hchar := h c hmem
  simp only [isNumberChar, Bool.or_eq_true, beq_iff_eq] at hchar
  rcases hchar with (hdigit | hdot) | rfl
  · exact .inl hdigit
  · exact .inr hdot
  · exact absurd rfl (of_decide_eq_true hne)

theorem run_plain {w : List Char} (h : Plain w) : ∃ whole rest, w = whole ++ rest ∧
    Run Decimal.isDigit whole rest ∧ (rest = [] ∨ ∃ more, rest = '.' :: more ∧ Plain more) := by
  obtain ⟨whole, rest, rfl, hrun⟩ := run_front Decimal.isDigit w
  refine ⟨whole, rest, rfl, hrun, ?_⟩
  cases rest with
  | nil => exact .inl rfl
  | cons c cs =>
    obtain ⟨hc, hcs⟩ := List.forall_mem_cons.mp (List.forall_mem_append.mp h).2
    rcases hc with hdigit | rfl
    · exact absurd hdigit (by simp [hrun.longest c cs rfl])
    · exact .inr ⟨cs, rfl, hcs⟩

theorem count_digits {w : List Char} (h : ∀ c ∈ w, Decimal.isDigit c = true) : w.count '.' = 0 := by
  rw [List.count_eq_zero]
  intro hmem
  exact absurd (h _ hmem) (by decide)

theorem isNumeral_whole {w : List Char} (h : ∀ c ∈ w, Decimal.isDigit c = true) :
    IsNumeral w ↔ w ≠ [] := by
  constructor
  · rintro ⟨⟨c, hc, _⟩, _⟩
    exact List.ne_nil_of_mem hc
  · intro hne
    obtain ⟨c, hc⟩ := List.exists_mem_of_ne_nil w hne
    exact ⟨⟨c, hc, h c hc⟩, by rw [count_digits h]; exact Nat.zero_le 1⟩

theorem isNumeral_point {whole fraction : List Char} (hw : ∀ c ∈ whole, Decimal.isDigit c = true)
    (hf : ∀ c ∈ fraction, Decimal.isDigit c = true) :
    IsNumeral (whole ++ '.' :: fraction) ↔ ¬(whole = [] ∧ fraction = []) := by
  constructor
  · rintro ⟨⟨c, hc, hdigit⟩, _⟩ ⟨rfl, rfl⟩
    obtain rfl : c = '.' := List.mem_singleton.mp hc
    exact absurd hdigit (by decide)
  · intro hne
    obtain ⟨c, hc⟩ := List.exists_mem_of_ne_nil (whole ++ fraction) (by simpa using hne)
    have hdigit := List.forall_mem_append.mpr ⟨hw, hf⟩ c hc
    refine ⟨⟨c, ?_, hdigit⟩, ?_⟩
    · rcases List.mem_append.mp hc with hc | hc
      · exact List.mem_append_left _ hc
      · exact List.mem_append_right _ (List.mem_cons_of_mem _ hc)
    · have hwhole := count_digits hw
      have hfraction := count_digits hf
      simp only [List.count_append, List.count_cons_self]
      omega

/-- A text of digits and points spells a number if it has a digit and no second point. -/
theorem readDigits_isSome {w : List Char} (h : Plain w) :
    (Decimal.readDigits? w).isSome = true ↔ IsNumeral w := by
  obtain ⟨whole, rest, rfl, hwhole, rfl | ⟨more, rfl, hmore⟩⟩ := run_plain h
  · have hread : (Decimal.readDigits? (whole ++ [])).isSome = true ↔ whole ≠ [] := by
      unfold Decimal.readDigits?
      rw [hwhole.takeWhile, hwhole.dropWhile]
      simp [Decimal.readExponent?]
    rw [hread, List.append_nil, isNumeral_whole hwhole.inside]
  · obtain ⟨fraction, rest, rfl, hfraction, rfl | ⟨others, rfl, _⟩⟩ := run_plain hmore
    · have hread : (Decimal.readDigits? (whole ++ '.' :: (fraction ++ []))).isSome = true ↔
          ¬(whole = [] ∧ fraction = []) := by
        unfold Decimal.readDigits?
        rw [hwhole.takeWhile, hwhole.dropWhile]
        simp only [hfraction.takeWhile, hfraction.dropWhile]
        simp [Decimal.readExponent?]
      rw [hread, List.append_nil, isNumeral_point hwhole.inside hfraction.inside]
    · have hread : Decimal.readDigits? (whole ++ '.' :: (fraction ++ '.' :: others)) = none := by
        unfold Decimal.readDigits?
        rw [hwhole.takeWhile, hwhole.dropWhile]
        simp only [hfraction.takeWhile, hfraction.dropWhile]
        simp [Decimal.readExponent?]
      have htwo : 1 < (whole ++ '.' :: (fraction ++ '.' :: others)).count '.' := by
        simp only [List.count_append, List.count_cons_self]
        omega
      rw [hread]
      exact ⟨fun h => (nomatch h), fun h => absurd h.point (Nat.not_le.mpr htwo)⟩

theorem splitSign_plain {w : List Char} (h : Plain w) : Decimal.splitSign w = (false, w) := by
  unfold Decimal.splitSign
  split
  · exact absurd (h '-' List.mem_cons_self) (by decide)
  · exact absurd (h '+' List.mem_cons_self) (by decide)
  · rfl

theorem toLower_plain {c : Char} (h : Decimal.isDigit c = true ∨ c = '.') : c.toLower = c := by
  have hlow : c.toNat < 65 := by
    rcases h with hdigit | rfl
    · simp only [Decimal.isDigit, Bool.and_eq_true, decide_eq_true_eq] at hdigit
      have hnine : c.toNat ≤ '9'.toNat := hdigit.2
      exact Nat.lt_of_le_of_lt hnine (by decide)
    · decide
  refine dif_neg fun hupper => ?_
  have hle : 65 ≤ c.toNat := hupper.1
  omega

/-- No name of an infinity or of NaN is made of digits and points. -/
theorem readUnsigned_plain {w : List Char} (h : Plain w) :
    Decimal.readUnsigned? w = Decimal.readDigits? w := by
  have hname : w.map Char.toLower = w :=
    (List.map_congr_left fun c hc => toLower_plain (h c hc)).trans (List.map_id' w)
  have hletter : 'n' ∉ w := by
    intro hmem
    exact absurd (h 'n' hmem) (by decide)
  unfold Decimal.readUnsigned?
  rw [hname]
  rw [if_neg, if_neg]
  · rintro rfl
    exact hletter (by decide)
  · rintro (rfl | rfl) <;> exact hletter (by decide)

theorem read_isSome {w : List Char} (h : Plain w) : (Decimal.read? w).isSome = true ↔ IsNumeral w := by
  rw [Decimal.read?, splitSign_plain h, ← readDigits_isSome h, ← readUnsigned_plain h]
  simp

end Numerals

section Pieces

/-- A comment ends at the first star before a slash, which its opening star is not. -/
theorem splitComment_closed {body rest : List Char} (h : ¬['*', '/'] <:+: body) :
    splitComment (body ++ '*' :: '/' :: rest) = some (body ++ ['*', '/'], rest) := by
  induction body with
  | nil => rfl
  | cons c body ih =>
    rw [List.infix_cons_iff, not_or] at h
    have hearly : ∀ cs, c = '*' → body ++ '*' :: '/' :: rest = '/' :: cs → False := by
      rintro cs rfl heq
      cases body with
      | nil => cases heq
      | cons d body =>
        obtain ⟨rfl, _⟩ := List.cons.inj heq
        exact h.1 ⟨body, rfl⟩
    rw [List.cons_append, splitComment.eq_3 c _ hearly, ih h.2]
    rfl

theorem splitComment_open {cs : List Char} (h : ¬['*', '/'] <:+: cs) : splitComment cs = none := by
  induction cs with
  | nil => rfl
  | cons c cs ih =>
    rw [List.infix_cons_iff, not_or] at h
    have hearly : ∀ ds, c = '*' → cs = '/' :: ds → False := by
      rintro ds rfl rfl
      exact h.1 ⟨ds, rfl⟩
    rw [splitComment.eq_3 c cs hearly, ih h.2]
    rfl

/-- Where a comment can end there is a first place. -/
theorem first_close (cs : List Char) : ¬['*', '/'] <:+: cs ∨
    ∃ body rest, cs = body ++ '*' :: '/' :: rest ∧ ¬['*', '/'] <:+: body := by
  induction cs with
  | nil => exact .inl (by decide)
  | cons c cs ih =>
    by_cases hhere : ['*', '/'] <+: c :: cs
    · obtain ⟨rest, hrest⟩ := hhere
      exact .inr ⟨[], rest, hrest.symm, by decide⟩
    · rcases ih with hnone | ⟨body, rest, rfl, hbody⟩
      · refine .inl ?_
        rw [List.infix_cons_iff, not_or]
        exact ⟨hhere, hnone⟩
      · refine .inr ⟨c :: body, rest, rfl, ?_⟩
        rw [List.infix_cons_iff, not_or]
        refine ⟨fun hfront => hhere ?_, hbody⟩
        exact hfront.trans (List.prefix_append (c :: body) _)

theorem stringPiece_closed {body rest : List Char} (h : '"' ∉ body) :
    stringPiece (body ++ '"' :: rest) =
      .ok (⟨'"' :: (body ++ ['"']), some (.string, String.ofList body)⟩, rest) := by
  have hrun : Run (· ≠ '"') body ('"' :: rest) := by
    refine ⟨fun c hc => decide_eq_true fun heq => h (heq ▸ hc), ?_⟩
    rintro _ _ ⟨⟩
    decide
  simp only [stringPiece, hrun.takeWhile, hrun.dropWhile]

theorem stringPiece_open {cs : List Char} (h : '"' ∉ cs) : stringPiece cs = .error .unterminatedString := by
  have hrun : Run (· ≠ '"') cs [] :=
    ⟨fun c hc => decide_eq_true fun heq => h (heq ▸ hc), fun _ _ h => (nomatch h)⟩
  have hdrop := hrun.dropWhile
  rw [List.append_nil] at hdrop
  simp only [stringPiece, hdrop]

theorem numberPiece_run {w rest : List Char} (h : Run isNumberChar w rest)
    (hn : IsNumeral (w.filter (· ≠ '_'))) : numberPiece (w ++ rest) =
      .ok (⟨w, some (.number, String.ofList (w.filter (· ≠ '_')))⟩, rest) := by
  have hread := (read_isSome (plain_filter h.inside)).mpr hn
  simp only [numberPiece, h.takeWhile, h.dropWhile, hread, ↓reduceIte]

theorem numberPiece_malformed {w rest : List Char} (h : Run isNumberChar w rest)
    (hn : ¬IsNumeral (w.filter (· ≠ '_'))) : numberPiece (w ++ rest) =
      .error (.malformedNumber (String.ofList (w.filter (· ≠ '_')))) := by
  have hread := mt (read_isSome (plain_filter h.inside)).mp hn
  simp only [numberPiece, h.takeWhile, hread, ↓reduceIte, Bool.false_eq_true]

theorem wordPiece_run {w rest : List Char} (h : Run isCased w rest) : wordPiece (w ++ rest) =
    (⟨w, some ((Kind.ofWord? (String.ofList w)).getD .identifier, String.ofList w)⟩, rest) := by
  simp only [wordPiece, h.takeWhile, h.dropWhile]

/-- A piece of the grammar is the next piece of the text that it stands in front of. -/
theorem nextPiece_leads {piece : Piece} {rest : List Char} (h : Leads piece rest) :
    ∃ c cs, piece.lexeme ++ rest = c :: cs ∧ nextPiece c cs = .ok (piece, rest) := by
  cases h with
  | @blank c rest hc =>
    exact ⟨c, rest, rfl, if_pos (isSpace_iff.mpr hc)⟩
  | @comment body rest hfirst =>
    refine ⟨'/', '*' :: (body ++ '*' :: '/' :: rest), by simp, ?_⟩
    rw [nextPiece, if_neg (by decide), if_pos ⟨rfl, rfl⟩, List.tail_cons, commentPiece,
      splitComment_closed hfirst]
  | @string body rest hfirst =>
    refine ⟨'"', body ++ '"' :: rest, by simp, ?_⟩
    rw [nextPiece, if_neg (by decide), if_neg (by simp), if_pos rfl, stringPiece_closed hfirst]
  | @number c w rest hc hw hn =>
    obtain ⟨hspace, hslash, hquote⟩ := isNumberStart_sort hc
    refine ⟨c, w ++ rest, rfl, ?_⟩
    simp only [nextPiece, hspace, hslash, hquote, hc, Bool.false_eq_true, false_and, ↓reduceIte]
    exact numberPiece_run hw hn
  | @word c w rest hw =>
    have hc : isCased c = true := hw.inside c List.mem_cons_self
    obtain ⟨hspace, hslash, hquote, hnumber⟩ := isCased_sort hc
    refine ⟨c, w ++ rest, rfl, ?_⟩
    simp only [nextPiece, hspace, hslash, hquote, hnumber, hc, Bool.false_eq_true, false_and, ↓reduceIte]
    exact congrArg Except.ok (wordPiece_run hw)
  | @symbol c k rest hc hslash =>
    obtain ⟨hspace, hquote, hnumber, hcased, _⟩ := ofSymbol_sort hc
    have hcomment : ¬(c = '/' ∧ rest.head? = some '*') := by
      rintro ⟨hc, hrest⟩
      exact hslash ⟨hc, List.head?_eq_some_iff.mp hrest⟩
    refine ⟨c, rest, rfl, ?_⟩
    simp only [nextPiece, hspace, hcomment, hquote, hnumber, hcased, Bool.false_eq_true, ↓reduceIte, hc]

theorem nextPiece_blocked {text : List Char} {cause : ScanCause} (h : Blocked text cause) :
    ∃ c cs, text = c :: cs ∧ nextPiece c cs = .error cause := by
  cases h with
  | @comment rest hopen =>
    refine ⟨'/', '*' :: rest, rfl, ?_⟩
    rw [nextPiece, if_neg (by decide), if_pos ⟨rfl, rfl⟩, List.tail_cons, commentPiece,
      splitComment_open hopen]
  | @string rest hopen =>
    refine ⟨'"', rest, rfl, ?_⟩
    rw [nextPiece, if_neg (by decide), if_neg (by simp), if_pos rfl, stringPiece_open hopen]
  | @number c w rest hc hw hn =>
    obtain ⟨hspace, hslash, hquote⟩ := isNumberStart_sort hc
    refine ⟨c, w ++ rest, rfl, ?_⟩
    simp only [nextPiece, hspace, hslash, hquote, hc, Bool.false_eq_true, false_and, ↓reduceIte]
    exact numberPiece_malformed hw hn
  | @character c rest hblank hquote hnumber hcased hsymbol =>
    have hspace : ¬isSpace c = true := mt isSpace_iff.mp hblank
    have hslash : c ≠ '/' := by
      rintro rfl
      cases hsymbol
    refine ⟨c, rest, rfl, ?_⟩
    simp only [nextPiece, hspace, hslash, hquote, hnumber, hcased, Bool.false_eq_true, false_and,
      ↓reduceIte, hsymbol]

/-- A text that is not empty begins with a piece or is blocked. -/
theorem leads_or_blocked (c : Char) (cs : List Char) :
    (∃ piece rest, c :: cs = piece.lexeme ++ rest ∧ Leads piece rest) ∨
      ∃ cause, Blocked (c :: cs) cause := by
  by_cases hblank : c ∈ [' ', '\t', '\n', '\r']
  · exact .inl ⟨_, cs, rfl, .blank hblank⟩
  by_cases hquote : c = '"'
  · subst hquote
    by_cases hopen : '"' ∈ cs
    · obtain ⟨body, rest, rfl, hfirst⟩ := List.eq_append_cons_of_mem hopen
      exact .inl ⟨_, rest, by simp, .string hfirst⟩
    · exact .inr ⟨_, .string hopen⟩
  by_cases hnumber : isNumberStart c = true
  · obtain ⟨w, rest, rfl, hw⟩ := run_cons (isNumberChar_of_start hnumber) cs
    by_cases hn : IsNumeral ((c :: w).filter (· ≠ '_'))
    · exact .inl ⟨_, rest, rfl, .number hnumber hw hn⟩
    · exact .inr ⟨_, .number hnumber hw hn⟩
  by_cases hcased : isCased c = true
  · obtain ⟨w, rest, rfl, hw⟩ := run_cons hcased cs
    exact .inl ⟨_, rest, rfl, .word hw⟩
  cases hsymbol : Kind.ofSymbol? c with
  | none => exact .inr ⟨_, .character hblank hquote (Bool.eq_false_iff.mpr hnumber)
      (Bool.eq_false_iff.mpr hcased) hsymbol⟩
  | some k =>
    by_cases hslash : c = '/' ∧ ∃ ds, cs = '*' :: ds
    · obtain ⟨rfl, ds, rfl⟩ := hslash
      rcases first_close ds with hopen | ⟨body, rest, rfl, hfirst⟩
      · exact .inr ⟨_, .comment hopen⟩
      · exact .inl ⟨_, rest, by simp, .comment hfirst⟩
    · exact .inl ⟨_, cs, rfl, .symbol hsymbol hslash⟩

end Pieces

section Texts

variable {piece : Piece} {pieces : List Piece} {text rest : List Char} {cause : ScanCause}

theorem lexeme_ne_nil (h : Leads piece rest) : piece.lexeme ≠ [] := by
  cases h <;> exact List.cons_ne_nil _ _

theorem text_eq (h : Cuts text pieces rest) : text = lexemes pieces ++ rest := by
  induction h with
  | done rest => rfl
  | piece hp h ih => rw [lexemes_cons, List.append_assoc, ← ih]

theorem length_cuts (h : Cuts text pieces rest) : pieces.length + rest.length ≤ text.length := by
  induction h with
  | done rest => exact Nat.le_of_eq (Nat.zero_add _)
  | piece hp h ih =>
    have hpos := List.length_pos_iff.mpr (lexeme_ne_nil hp)
    rw [List.length_cons, List.length_append]
    omega

/-- Cutting ends at the end of the text or where no piece begins. -/
theorem cuts_total (text : List Char) : ∃ pieces rest, Cuts text pieces rest ∧
    (rest = [] ∨ ∃ cause, Blocked rest cause) := by
  -- what is left behind a piece is shorter than the text
  induction hn : text.length using Nat.strongRecOn generalizing text with
  | ind n ih =>
    cases text with
    | nil => exact ⟨[], [], .done [], .inl rfl⟩
    | cons c cs =>
      rcases leads_or_blocked c cs with ⟨piece, rest, heq, hp⟩ | hblocked
      · have hpos := List.length_pos_iff.mpr (lexeme_ne_nil hp)
        have hlength : rest.length < n := by
          rw [← hn, heq, List.length_append]
          omega
        obtain ⟨pieces, left, hcuts, hend⟩ := ih rest.length hlength rest rfl
        rw [heq]
        exact ⟨piece :: pieces, left, .piece hp hcuts, hend⟩
      · exact ⟨[], c :: cs, .done _, .inr hblocked⟩

theorem scanFrom_leads (h : Leads piece rest) (n : Nat) (p : Position) :
    scanFrom (n + 1) p (piece.lexeme ++ rest) =
      (scanFrom n (p.after piece.lexeme) rest).map (tokenAt p piece ++ ·) := by
  obtain ⟨c, cs, heq, hnext⟩ := nextPiece_leads h
  rw [heq, scanFrom, hnext]
  dsimp only
  cases scanFrom n (p.after piece.lexeme) rest with
  | error e => rfl
  | ok tokens =>
    dsimp only [tokenAt]
    cases piece.token? with
    | none => rfl
    | some s => rfl

theorem scanFrom_blocked (h : Blocked rest cause) (n : Nat) (p : Position) :
    scanFrom (n + 1) p rest = .error ⟨p, cause⟩ := by
  obtain ⟨c, cs, rfl, hnext⟩ := nextPiece_blocked h
  rw [scanFrom, hnext]

/-- Every piece takes one step, and the tokens of the pieces come before those of the rest. -/
theorem scanFrom_cuts (h : Cuts text pieces rest) (m : Nat) (p : Position) :
    scanFrom (pieces.length + m) p text =
      (scanFrom m (p.after (lexemes pieces)) rest).map (tokensAt p pieces ++ ·) := by
  induction h generalizing p with
  | done rest =>
    rw [List.length_nil, Nat.zero_add, lexemes_nil, Position.after_nil]
    cases scanFrom m p rest with
    | error e => rfl
    | ok tokens => rfl
  | @piece q text rest pieces hq h ih =>
    rw [List.length_cons, Nat.add_right_comm, scanFrom_leads hq, ih, lexemes_cons, Position.after_append]
    cases scanFrom m ((p.after q.lexeme).after (lexemes pieces)) rest with
    | error e => rfl
    | ok tokens => exact congrArg Except.ok (List.append_assoc _ _ _).symm

theorem scanFrom_done (h : Cuts text pieces []) {n : Nat} (hn : text.length < n) (p : Position) :
    scanFrom n p text = .ok (tokensAt p pieces ++ [eof (p.after text)]) := by
  have hlength := length_cuts h
  rw [List.length_nil] at hlength
  obtain ⟨m, rfl⟩ : ∃ m, n = pieces.length + (m + 1) := ⟨n - pieces.length - 1, by omega⟩
  rw [scanFrom_cuts h, text_eq h, List.append_nil]
  rfl

theorem scanFrom_stuck (h : Cuts text pieces rest) (hblocked : Blocked rest cause) {n : Nat}
    (hn : text.length < n) (p : Position) :
    scanFrom n p text = .error ⟨p.after (lexemes pieces), cause⟩ := by
  have hlength := length_cuts h
  obtain ⟨m, rfl⟩ : ∃ m, n = pieces.length + (m + 1) := ⟨n - pieces.length - 1, by omega⟩
  rw [scanFrom_cuts h, scanFrom_blocked hblocked]
  rfl

end Texts

/-- A text has tokens if it can be cut up to its end. -/
theorem scan_ok_iff {source : String} {tokens : List Token} : scan source = .ok tokens ↔
    ∃ pieces, Cuts source.toList pieces [] ∧
      tokens = tokensAt .start pieces ++ [eof (Position.start.after source.toList)] := by
  have hlength : source.toList.length < source.toList.length + 1 := Nat.lt_succ_self _
  constructor
  · intro h
    obtain ⟨pieces, rest, hcuts, rfl | ⟨cause, hblocked⟩⟩ := cuts_total source.toList
    · exact ⟨pieces, hcuts, Except.ok.inj (h.symm.trans (scanFrom_done hcuts hlength .start))⟩
    · exact nomatch h.symm.trans (scanFrom_stuck hcuts hblocked hlength .start)
  · rintro ⟨pieces, hcuts, rfl⟩
    exact scanFrom_done hcuts hlength .start

/-- A text has an error where it can be cut no further. -/
theorem scan_error_iff {source : String} {e : ScanError} : scan source = .error e ↔
    ∃ pieces rest, Cuts source.toList pieces rest ∧ Blocked rest e.cause ∧
      e.position = Position.start.after (lexemes pieces) := by
  have hlength : source.toList.length < source.toList.length + 1 := Nat.lt_succ_self _
  constructor
  · intro h
    obtain ⟨pieces, rest, hcuts, rfl | ⟨cause, hblocked⟩⟩ := cuts_total source.toList
    · exact nomatch h.symm.trans (scanFrom_done hcuts hlength .start)
    · obtain rfl := Except.error.inj (h.symm.trans (scanFrom_stuck hcuts hblocked hlength .start))
      exact ⟨pieces, rest, hcuts, hblocked, rfl⟩
  · rintro ⟨pieces, rest, hcuts, hblocked, hplace⟩
    have hscan := scanFrom_stuck hcuts hblocked hlength .start
    rw [← hplace] at hscan
    exact hscan

theorem leads_ne_eof {piece : Piece} {rest : List Char} (h : Leads piece rest) {k : Kind} {s : String}
    (hs : piece.token? = some (k, s)) : k ≠ .eof := by
  cases h with
  | blank hc => cases hs
  | comment hfirst => cases hs
  | string hfirst =>
    obtain ⟨rfl, _⟩ := Prod.mk.inj (Option.some.inj hs)
    decide
  | number hc hw hn =>
    obtain ⟨rfl, _⟩ := Prod.mk.inj (Option.some.inj hs)
    decide
  | word hw =>
    obtain ⟨rfl, _⟩ := Prod.mk.inj (Option.some.inj hs)
    exact isPlain_ne_eof (ofWord_plain _)
  | symbol hc hslash =>
    obtain ⟨rfl, _⟩ := Prod.mk.inj (Option.some.inj hs)
    exact isPlain_ne_eof (ofSymbol_plain hc)

/-- No piece of a text gives the token of the end. -/
theorem tokensAt_ne_eof {pieces : List Piece} {text rest : List Char} (h : Cuts text pieces rest)
    (p : Position) : ∀ t ∈ tokensAt p pieces, t.kind ≠ .eof := by
  induction h generalizing p with
  | done rest => exact fun _ ht => nomatch ht
  | piece hp h ih =>
    refine List.forall_mem_append.mpr ⟨?_, ih _⟩
    intro t ht
    obtain ⟨s, hs, rfl⟩ := Option.map_eq_some_iff.mp (Option.mem_toList.mp ht)
    exact leads_ne_eof hp hs

/-- Scanning accepts exactly the texts that are cut into pieces up to their end, and gives the tokens
of the pieces with one token of the end behind them. Any other text is cut up to a place where no
piece begins; the error is at that place and tells what is wrong there. -/
theorem scan_cuts (source : String) :
    (∀ tokens, scan source = .ok tokens ↔ ∃ pieces, Cuts source.toList pieces [] ∧
      tokens = tokensAt .start pieces ++ [eof (Position.start.after source.toList)] ∧
      ∀ t ∈ tokensAt .start pieces, t.kind ≠ .eof) ∧
    ∀ e, scan source = .error e ↔ ∃ pieces rest, Cuts source.toList pieces rest ∧
      Blocked rest e.cause ∧ e.position = Position.start.after (lexemes pieces) := by
  refine ⟨fun tokens => ?_, fun e => scan_error_iff⟩
  rw [scan_ok_iff]
  refine exists_congr fun pieces => and_congr_right fun hcuts => ?_
  exact (and_iff_left (tokensAt_ne_eof hcuts .start)).symm

end Proofs.LexicalGrammar

end Scriptlet
