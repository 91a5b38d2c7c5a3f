import Scriptlet.Proofs.LexicalGrammar
import Scriptlet.Proofs.Printing

namespace Scriptlet.Proofs.PrintedTokens
open Scriptlet.Text Scriptlet.Token Spelling LexicalGrammar

/-- A token that its own characters give back, whatever follows behind a space. -/
inductive Scannable : Spelling → Prop where
  | word {k : Kind} {s : String} (hne : s ≠ "") (hcased : ∀ c ∈ s.toList, isCased c = true)
      (hk : (Kind.ofWord? s).getD .identifier = k) (hstring : k ≠ .string) : Scannable (k, s)
  | text {s : String} (h : '"' ∉ s.toList) : Scannable (.string, s)
  | number {s : String} (hstart : ∃ c cs, s.toList = c :: cs ∧ isNumberStart c = true)
      (hchars : ∀ c ∈ s.toList, isNumberChar c = true ∧ c ≠ '_')
      (hread : (Decimal.read? s.toList).isSome = true) : Scannable (.number, s)
  | symbol {c : Char} {k : Kind} (h : Kind.ofSymbol? c = some k) : Scannable (k, String.singleton c)

/-- What stands behind a token: nothing, or a space. -/
def Parted (rest : List Char) : Prop :=
  rest = [] ∨ ∃ cs, rest = ' ' :: cs

theorem Parted.run {sort : Char → Bool} {w rest : List Char} (h : Parted rest) (hsort : sort ' ' = false)
    (hw : ∀ c ∈ w, sort c = true) : Run sort w rest := by
  refine ⟨hw, ?_⟩
  rcases h with rfl | ⟨cs, rfl⟩
  · exact fun _ _ h => nomatch h
  · rintro _ _ ⟨⟩
    exact hsort

theorem Parted.not_star {rest : List Char} (h : Parted rest) : ¬∃ cs, rest = '*' :: cs := by
  rcases h with rfl | ⟨cs, rfl⟩
  · exact fun ⟨_, h⟩ => nomatch h
  · exact fun ⟨_, h⟩ => nomatch h

/-- The characters of a token are a piece, and its token is the one that was written. -/
theorem leads_lexeme {s : Spelling} (h : Scannable s) {rest : List Char} (hrest : Parted rest) :
    Leads ⟨s.lexeme, some s⟩ rest := by
  cases h with
  | @word k s hne hcased hk hstring =>
    have hlexeme : lexeme (k, s) = s.toList := if_neg hstring
    obtain ⟨c, cs, hs⟩ := List.exists_cons_of_ne_nil (mt String.toList_eq_nil_iff.mp hne)
    have hrun : Run isCased s.toList rest := hrest.run (by decide) hcased
    rw [hs] at hrun
    have hword := Leads.word hrun
    rw [← hs, String.ofList_toList, hk] at hword
    rw [hlexeme]
    exact hword
  | @text s h =>
    have hstring : Leads _ rest := .string h
    rw [String.ofList_toList] at hstring
    exact hstring
  | @number s hstart hchars hread =>
    obtain ⟨c, cs, hs, hc⟩ := hstart
    have hrun : Run isNumberChar s.toList rest := hrest.run (by decide) fun x hx => (hchars x hx).1
    have hfilter : s.toList.filter (· ≠ '_') = s.toList :=
      List.filter_eq_self.mpr fun x hx => decide_eq_true (hchars x hx).2
    have hn : IsNumeral (s.toList.filter (· ≠ '_')) := by
      have hplain := plain_filter hrun.inside
      rw [hfilter] at hplain ⊢
      exact (read_isSome hplain).mp hread
    rw [hs] at hrun hn
    have hnumber := Leads.number hc hrun hn
    rw [← hs, hfilter, String.ofList_toList] at hnumber
    exact hnumber
  | @symbol c k h =>
    have hlexeme : lexeme (k, String.singleton c) = [c] := by
      rw [lexeme, if_neg (isPlain_ne_string (ofSymbol_plain h)), String.toList_singleton]
    rw [hlexeme]
    exact .symbol h fun hslash => hrest.not_star hslash.2

theorem scannable_ne_eof {s : Spelling} (h : Scannable s) : s.1 ≠ .eof :=
  leads_ne_eof (leads_lexeme h (.inl rfl)) rfl

/-- A token without its place. -/
def spelling (t : Token) : Spelling :=
  (t.kind, t.text)

/-- Written in this way, the token is a piece in front of a space and of the end. -/
def WrittenBy (write : Spelling → List Char) (s : Spelling) : Prop :=
  ∀ rest, Parted rest → Leads ⟨write s, some s⟩ rest

section Spaced

variable {write : Spelling → List Char} {s : Spelling}

theorem scanFrom_written (h : WrittenBy write s) {rest : List Char} (hrest : Parted rest)
    {n : Nat} {p : Position} {ts : List Token} (hscan : scanFrom n (p.after (write s)) rest = .ok ts) :
    scanFrom (n + 1) p (write s ++ rest) = .ok (⟨s.1, s.2, p⟩ :: ts) := by
  rw [scanFrom_leads (h rest hrest), hscan]
  rfl

theorem scanFrom_space {n : Nat} {p : Position} {cs : List Char} {ts : List Token}
    (hscan : scanFrom n (p.next ' ') cs = .ok ts) : scanFrom (n + 1) p (' ' :: cs) = .ok ts := by
  have hblank : Leads ⟨[' '], none⟩ cs := .blank List.mem_cons_self
  have hleads := scanFrom_leads hblank n p
  rw [Position.after_cons, Position.after_nil, hscan] at hleads
  exact hleads

theorem written_pos (h : WrittenBy write s) : 0 < (write s).length :=
  List.length_pos_iff.mpr (lexeme_ne_nil (h [] (.inl rfl)))

/-- Scanning gives back the tokens of a text that was written with spaces between them. -/
theorem scanFrom_intercalate {ws : List Spelling} (hws : ∀ s ∈ ws, WrittenBy write s) {n : Nat}
    (p : Position) (hn : ([' '].intercalate (ws.map write)).length < n) :
    ∃ ts q, scanFrom n p ([' '].intercalate (ws.map write)) = .ok (ts ++ [eof q]) ∧
      ts.map spelling = ws := by
  induction ws generalizing n p with
  | nil =>
    cases n with
    | zero => exact ⟨[], p, rfl, rfl⟩
    | succ n => exact ⟨[], p, rfl, rfl⟩
  | cons s ws ih =>
    obtain ⟨m, rfl⟩ : ∃ m, n = m + 1 := ⟨n - 1, by omega⟩
    have hs := hws s List.mem_cons_self
    have hpos := written_pos hs
    cases ws with
    | nil =>
      have hend : scanFrom m (p.after (write s)) [] = .ok [eof (p.after (write s))] := by
        cases m <;> rfl
      have hscan := scanFrom_written hs (.inl rfl) hend
      rw [List.append_nil] at hscan
      exact ⟨[⟨s.1, s.2, p⟩], _, by simpa [List.intercalate] using hscan, rfl⟩
    | cons s' ws =>
      simp only [List.map_cons, List.intercalate_cons_cons, List.append_assoc, List.singleton_append,
        List.length_append, List.length_cons] at hn ih ⊢
      obtain ⟨k, rfl⟩ : ∃ k, m = k + 1 := ⟨m - 1, by omega⟩
      obtain ⟨ts, q, hts, hmap⟩ := @ih (fun u hu => hws u (List.mem_cons_of_mem _ hu)) k
        ((p.after (write s)).next ' ') (by omega)
      exact ⟨⟨s.1, s.2, p⟩ :: ts, q, scanFrom_written hs (.inr ⟨_, rfl⟩) (scanFrom_space hts),
        by rw [List.map_cons, hmap]; rfl⟩

end Spaced

theorem isNumberChar_of_digit {c : Char} (h : c.isDigit = true) : isNumberChar c = true ∧ c ≠ '_' := by
  have hdigit : Decimal.isDigit c = true := by
    simpa [Decimal.isDigit, Char.isDigit, Char.le_def] using h
  refine ⟨by simp [isNumberChar, hdigit], ?_⟩
  rintro rfl
  exact absurd h (by decide)

theorem isNumberStart_of_digit {c : Char} (h : c.isDigit = true) : isNumberStart c = true := by
  have hdigit : Decimal.isDigit c = true := by
    simpa [Decimal.isDigit, Char.isDigit, Char.le_def] using h
  simp [isNumberStart, hdigit]

theorem digitsOf_isDigit {n : Nat} {c : Char} (h : c ∈ Decimal.digitsOf n) : c.isDigit = true :=
  Nat.isDigit_of_mem_toDigits (by decide) (by decide) h

/-- A decimal without exponent is a digit, then digits and points. -/
theorem positional_chars (d : Decimal.Scaled) :
    (∃ c cs, d.positional = c :: cs ∧ c.isDigit = true) ∧
      ∀ c ∈ d.positional, c.isDigit = true ∨ c = '.' := by
  obtain ⟨c, cs, hdigits⟩ := List.exists_cons_of_ne_nil (l := Decimal.digitsOf d.coefficient)
    Nat.toDigits_ne_nil
  have hall : ∀ x ∈ Decimal.digitsOf d.coefficient, x.isDigit = true := fun _ => digitsOf_isDigit
  have hfirst : c.isDigit = true := hall c (hdigits ▸ List.mem_cons_self)
  have hzeros : ∀ n, ∀ x ∈ List.replicate n '0', x.isDigit = true := by
    intro n x hx
    rw [(List.mem_replicate.mp hx).2]
    rfl
  unfold Decimal.Scaled.positional
  dsimp only
  split
  · refine ⟨⟨'0', _, rfl, rfl⟩, ?_⟩
    intro x hx
    simp only [List.mem_cons, List.mem_append] at hx
    rcases hx with rfl | rfl | hx | hx
    · exact .inl rfl
    · exact .inr rfl
    · exact .inl (hzeros _ x hx)
    · exact .inl (hall x hx)
  · rename_i hpoint
    split
    · obtain ⟨k, hk⟩ : ∃ k, ((Decimal.digitsOf d.coefficient).length + d.exponent).toNat = k + 1 :=
        ⟨((Decimal.digitsOf d.coefficient).length + d.exponent).toNat - 1, by omega⟩
      rw [hk]
      refine ⟨⟨c, cs.take k ++ '.' :: (Decimal.digitsOf d.coefficient).drop (k + 1), ?_, hfirst⟩, ?_⟩
      · rw [hdigits]
        rfl
      · intro x hx
        simp only [List.mem_append, List.mem_cons] at hx
        rcases hx with hx | rfl | hx
        · exact .inl (hall x (List.mem_of_mem_take hx))
        · exact .inr rfl
        · exact .inl (hall x (List.mem_of_mem_drop hx))
    · refine ⟨⟨c, cs ++ List.replicate d.exponent.toNat '0', by rw [hdigits]; rfl, hfirst⟩, ?_⟩
      intro x hx
      rcases List.mem_append.mp hx with hx | hx
      · exact .inl (hall x hx)
      · exact .inl (hzeros _ x hx)

theorem isFinite_sort {x : Float} (h : x.isFinite = true) : x.isNaN = false ∧ x.isInf = false := by
  change x.toModel.unpack.isFinite = true at h
  change x.toModel.unpack.isNaN = false ∧ x.toModel.unpack.isInf = false
  generalize x.toModel.unpack = u at h ⊢
  cases u with
  | infinity sign => cases h
  | notANumber => cases h
  | zero sign => exact ⟨rfl, rfl⟩
  | finite sign mantissa exponent hpos => exact ⟨rfl, rfl⟩

theorem IsLiteral.scannable {x : Float} (h : IsLiteral x) : Scannable (.number, Decimal.plainText x) := by
  obtain ⟨hnan, hinf⟩ := isFinite_sort h.finite
  have htext : (∃ c cs, (Decimal.plainText x).toList = c :: cs ∧ c.isDigit = true) ∧
      ∀ c ∈ (Decimal.plainText x).toList, c.isDigit = true ∨ c = '.' := by
    simp only [Decimal.plainText, hnan, hinf, h.unsigned, Bool.false_eq_true, ↓reduceIte,
      String.toList_ofList]
    split
    · exact ⟨⟨'0', [], rfl, rfl⟩, fun c hc => .inl (List.mem_singleton.mp hc ▸ rfl)⟩
    · exact positional_chars _
  obtain ⟨⟨c, cs, heq, hc⟩, hall⟩ := htext
  refine .number ⟨c, cs, heq, isNumberStart_of_digit hc⟩ ?_ (by rw [h.reads]; rfl)
  intro x hx
  rcases hall x hx with hdigit | rfl
  · exact isNumberChar_of_digit hdigit
  · decide

theorem IsName.scannable {s : String} (h : IsName s) : Scannable (.identifier, s) := by
  obtain ⟨hne, hcased, hword⟩ := h
  exact .word hne hcased (by rw [hword]; rfl) (by decide)

def AllScannable (w : List Spelling) : Prop :=
  ∀ s ∈ w, Scannable s

theorem AllScannable.nil : AllScannable [] :=
  fun _ h => nomatch h

theorem AllScannable.cons {s : Spelling} {w : List Spelling} (hs : Scannable s) (hw : AllScannable w) :
    AllScannable (s :: w) :=
  List.forall_mem_cons.mpr ⟨hs, hw⟩

theorem AllScannable.append {v w : List Spelling} (hv : AllScannable v) (hw : AllScannable w) :
    AllScannable (v ++ w) :=
  List.forall_mem_append.mpr ⟨hv, hw⟩

theorem AllScannable.singleton {s : Spelling} (hs : Scannable s) : AllScannable [s] :=
  .cons hs .nil

theorem AllScannable.enclosed {w : List Spelling} (hw : AllScannable w) : AllScannable (enclosed w) :=
  .cons (.symbol (c := '(') rfl) (hw.append (.singleton (.symbol (c := ')') rfl)))

theorem AllScannable.continued {ws : List (List Spelling)} (hws : ∀ w ∈ ws, AllScannable w) :
    AllScannable (continued ws) := by
  induction ws with
  | nil => exact .nil
  | cons w ws ih =>
    obtain ⟨hw, hws⟩ := List.forall_mem_cons.mp hws
    exact .cons (.symbol (c := ',') rfl) (hw.append (ih hws))

theorem AllScannable.separated {ws : List (List Spelling)} (hws : ∀ w ∈ ws, AllScannable w) :
    AllScannable (separated ws) := by
  cases ws with
  | nil => exact .nil
  | cons w ws =>
    obtain ⟨hw, hws⟩ := List.forall_mem_cons.mp hws
    exact hw.append (.continued hws)

theorem AllScannable.asOperand {e : Expr} {w : List Spelling} (hw : AllScannable w) :
    AllScannable (e.asOperand w) := by
  unfold Expr.asOperand
  split
  · exact hw
  · exact hw.enclosed

theorem AllScannable.memberWords {computed : Bool} {w : List Spelling} (hw : AllScannable w) :
    AllScannable (memberWords computed w) := by
  cases computed with
  | false => exact .cons (.symbol (c := '.') rfl) hw
  | true => exact .cons (.symbol (c := '[') rfl) (hw.append (.singleton (.symbol (c := ']') rfl)))

theorem AllScannable.written {w : List Spelling} (hw : AllScannable w) : AllScannable (equals :: w) :=
  .cons (.symbol (c := '=') rfl) hw

theorem binaryOp_scannable (op : BinaryOp) : AllScannable op.words := by
  cases op with
  | add => exact .singleton (.symbol (c := '+') rfl)
  | sub => exact .singleton (.symbol (c := '-') rfl)
  | mul => exact .singleton (.symbol (c := '*') rfl)
  | div => exact .singleton (.symbol (c := '/') rfl)
  | mod => exact .singleton (.symbol (c := '%') rfl)

theorem booleanOp_scannable (op : BooleanOp) : AllScannable op.words := by
  cases op with
  | and => exact .cons (.symbol (c := '&') rfl) (.singleton (.symbol (c := '&') rfl))
  | or => exact .cons (.symbol (c := '|') rfl) (.singleton (.symbol (c := '|') rfl))

theorem logicalOp_scannable (op : LogicalOp) (admitsEqual : Bool) : AllScannable (op.words admitsEqual) := by
  have hequals : AllScannable [equals] := .written .nil
  cases op with
  | less =>
    cases admitsEqual with
    | false => exact .singleton (.symbol (c := '<') rfl)
    | true => exact .cons (.symbol (c := '<') rfl) hequals
  | greater =>
    cases admitsEqual with
    | false => exact .singleton (.symbol (c := '>') rfl)
    | true => exact .cons (.symbol (c := '>') rfl) hequals
  | equal => exact hequals.written
  | notEqual => exact .cons (.symbol (c := '!') rfl) hequals

mutual

theorem expr_scannable : (e : Expr) → e.Printable → AllScannable e.words
  | .number _, h => .singleton (IsLiteral.scannable h)
  | .text _, h => .singleton (.text h)
  | .identifier _, h => .singleton (IsName.scannable h)
  | .array es, h => .cons (.symbol (c := '[') rfl)
      ((AllScannable.separated (exprs_scannable es h)).append (.singleton (.symbol (c := ']') rfl)))
  | .object ps, h => .cons (.symbol (c := '\x7b') rfl)
      ((AllScannable.separated (properties_scannable ps h)).append (.singleton (.symbol (c := '\x7d') rfl)))
  | .assign _ value, h => .cons (IsName.scannable h.1) (expr_scannable value h.2).written
  | .call callee arguments, h => (expr_scannable callee h.1).asOperand.append
      (AllScannable.separated (exprs_scannable arguments h.2)).enclosed
  | .member object key _ none, h =>
    (expr_scannable object h.1).asOperand.append (expr_scannable key h.2.1).memberWords
  | .member object key _ (some value), h => (expr_scannable object h.1.1).asOperand.append
      ((expr_scannable key h.1.2.1).memberWords.append (expr_scannable value h.2).written)
  | .boolean left op right, h => (expr_scannable left h.1).asOperand.append
      ((booleanOp_scannable op).append (expr_scannable right h.2).asOperand)
  | .binary left op right, h => (expr_scannable left h.1).asOperand.append
      ((binaryOp_scannable op).append (expr_scannable right h.2).asOperand)
  | .logical left op admitsEqual right, h => (expr_scannable left h.1).asOperand.append
      ((logicalOp_scannable op admitsEqual).append (expr_scannable right h.2.1).asOperand)
  | .not operand, h => .cons (.symbol (c := '!') rfl) (expr_scannable operand h).asOperand

theorem exprs_scannable : (es : List Expr) → Expr.AllPrintable es →
    ∀ w ∈ Expr.wordsOfEach es, AllScannable w
  | [], _ => fun _ hw => nomatch hw
  | e :: es, h => List.forall_mem_cons.mpr ⟨expr_scannable e h.1, exprs_scannable es h.2⟩

theorem property_scannable : (p : Property) → p.Printable → AllScannable p.words
  | .shorthand _, h => .singleton (IsName.scannable h)
  | .valued _ value, h =>
    .cons (IsName.scannable h.1) (.cons (.symbol (c := ':') rfl) (expr_scannable value h.2))

theorem properties_scannable : (ps : List Property) → Property.AllPrintable ps →
    ∀ w ∈ Property.wordsOfEach ps, AllScannable w
  | [], _ => fun _ hw => nomatch hw
  | p :: ps, h => List.forall_mem_cons.mpr ⟨property_scannable p h.1, properties_scannable ps h.2⟩

end

theorem AllScannable.braced {w : List Spelling} (hw : AllScannable w) :
    AllScannable (openBrace :: (w ++ [closeBrace])) :=
  .cons (.symbol (c := '\x7b') rfl) (hw.append (.singleton (.symbol (c := '\x7d') rfl)))

theorem isCased_of_isLower {c : Char} (h : c.isLower = true) : isCased c = true := by
  have hrange : (0x61, 0x7A) ∈ casedRanges := .tail _ (.head _)
  refine List.any_eq_true.mpr ⟨_, hrange, ?_⟩
  change (decide (c.val ≥ 'a'.val) && decide (c.val ≤ 'z'.val)) = true at h
  simp only [Bool.and_eq_true, decide_eq_true_eq] at h ⊢
  exact ⟨h.1, h.2⟩

theorem isCased_of_all_isLower {s : String} (h : s.toList.all Char.isLower = true) :
    ∀ c ∈ s.toList, isCased c = true := by
  intro c hc
  exact isCased_of_isLower (List.all_eq_true.mp h c hc)

theorem reserved_scannable {k : Kind} {s : String} (hne : s ≠ "") (hk : Kind.ofWord? s = some k)
    (hlower : s.toList.all Char.isLower = true) : Scannable (k, s) := by
  have hplain := ofWord_plain s
  rw [hk] at hplain
  exact .word hne (isCased_of_all_isLower hlower) (by rw [hk]; rfl) (isPlain_ne_string hplain)

mutual

theorem stmt_scannable : (s : Stmt) → s.Printable → AllScannable s.words
  | .structDecl _ _, h => by
    refine .cons (reserved_scannable (by decide) rfl (by decide))
      (.cons (IsName.scannable h.1) (AllScannable.braced (.separated ?_)))
    intro w hw
    obtain ⟨f, hf, rfl⟩ := List.mem_map.mp hw
    obtain ⟨hname, htype⟩ := h.2.2 f hf
    exact .cons (IsName.scannable hname) (.cons (.symbol (c := ':') rfl)
      (.singleton (IsName.scannable htype)))
  | .fnDecl _ _ body, h => by
    refine .cons (reserved_scannable (by decide) rfl (by decide))
      (.cons (IsName.scannable h.1) (.append (.enclosed (.separated ?_))
        (stmts_scannable body h.2.2).braced))
    intro w hw
    obtain ⟨q, hq, rfl⟩ := List.mem_map.mp hw
    exact .singleton (IsName.scannable (h.2.1 q hq))
  | .ret value, h => .cons (reserved_scannable (by decide) rfl (by decide))
      (expr_scannable value h)
  | .ifThen test body, h => .cons (reserved_scannable (by decide) rfl (by decide))
      ((expr_scannable test h.1).enclosed.append (stmts_scannable body h.2).braced)
  | .whileDo test body, h => .cons (reserved_scannable (by decide) rfl (by decide))
      ((expr_scannable test h.1).enclosed.append (stmts_scannable body h.2).braced)
  | .varDecl _ true value, h => .cons (reserved_scannable (by decide) rfl (by decide))
      (.cons (IsName.scannable h.1) (expr_scannable value h.2).written)
  | .varDecl _ false value, h => .cons (reserved_scannable (by decide) rfl (by decide))
      (.cons (IsName.scannable h.1) (expr_scannable value h.2).written)
  | .expr value, h => expr_scannable value h

theorem stmts_scannable : (ss : List Stmt) → Stmt.AllPrintable ss → AllScannable (Stmt.listWords ss)
  | [], _ => .nil
  | s :: ss, h => (stmt_scannable s h.1).append
      (.cons (.symbol (c := ';') rfl) (stmts_scannable ss h.2))

end

/-- The tokens of a printed program are those it was written with. -/
theorem scan_print {p : Program} (h : p.Printable) :
    ∃ ts q, scan p.print = .ok (ts ++ [eof q]) ∧ ts.map spelling = Stmt.listWords p.body := by
  unfold scan Program.print
  rw [String.toList_ofList]
  refine scanFrom_intercalate (fun s hs rest hrest => ?_) .start (Nat.lt_succ_self _)
  exact leads_lexeme (stmts_scannable p.body h s hs) hrest

end Scriptlet.Proofs.PrintedTokens
