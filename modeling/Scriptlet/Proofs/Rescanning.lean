import Scriptlet.Proofs.PrintedTokens
import Scriptlet.Proofs.TokenPlaces

namespace Scriptlet

/-- The characters to write a token with: those of the source, but a number that begins with a point gets an
underscore in front. -/
def Spelling.respelled (s : Spelling) : List Char :=
  if s.1 = .number ∧ s.2.toList.head? = some '.' then '_' :: s.2.toList else s.lexeme

/-- Tokens as a text, with one space between them and nothing for the end. -/
def Token.rewrite (tokens : List Token) : String :=
  String.ofList
    ([' '].intercalate ((tokens.filter (·.kind ≠ .eof)).map fun t => Spelling.respelled (t.kind, t.text)))

namespace Proofs.Rescanning
open Scriptlet.Text Scriptlet.Token Spelling LexicalGrammar PrintedTokens

variable {piece : Piece} {rest : List Char} {s : Spelling}

theorem scannable_written (hs : Scannable s) (h : ¬(s.1 = .number ∧ s.2.toList.head? = some '.')) :
    WrittenBy respelled s := by
  intro rest hrest
  rw [respelled, if_neg h]
  exact leads_lexeme hs hrest

section Numbers

/-- The text of a number: its characters, underscores left out. -/
def IsNumberText (w : List Char) : Prop :=
  (∀ c ∈ w, isNumberChar c = true ∧ c ≠ '_') ∧ IsNumeral w

variable {w : List Char}

theorem isNumberText_filter (hw : ∀ c ∈ w, isNumberChar c = true) (hn : IsNumeral (w.filter (· ≠ '_'))) :
    IsNumberText (w.filter (· ≠ '_')) := by
  refine ⟨fun c hc => ?_, hn⟩
  obtain ⟨hmem, hne⟩ := List.mem_filter.mp hc
  exact ⟨hw c hmem, of_decide_eq_true hne⟩

theorem filter_isNumberText (h : IsNumberText w) : w.filter (· ≠ '_') = w :=
  List.filter_eq_self.mpr fun c hc => decide_eq_true (h.1 c hc).2

theorem plain_isNumberText (h : IsNumberText w) : Plain w := by
  have hplain := plain_filter fun c hc => (h.1 c hc).1
  rwa [filter_isNumberText h] at hplain

/-- A number that begins with a point is one behind an underscore, as it was where it was cut. -/
theorem leads_pointed (h : IsNumberText w) (hrest : Parted rest) :
    Leads ⟨'_' :: w, some (.number, String.ofList w)⟩ rest := by
  have hfilter : ('_' :: w).filter (· ≠ '_') = w :=
    (List.filter_cons_of_neg (by decide)).trans (filter_isNumberText h)
  have hrun : Run isNumberChar ('_' :: w) rest :=
    hrest.run (by decide) (List.forall_mem_cons.mpr ⟨by decide, fun c hc => (h.1 c hc).1⟩)
  have hnumeral : IsNumeral (('_' :: w).filter (· ≠ '_')) := by
    rw [hfilter]
    exact h.2
  have hnumber := Leads.number (by decide) hrun hnumeral
  rwa [hfilter] at hnumber

theorem scannable_unpointed (h : IsNumberText w) (hpoint : w.head? ≠ some '.') :
    Scannable (.number, String.ofList w) := by
  have hplain := plain_isNumberText h
  obtain ⟨d, hd, -⟩ := h.2.digit
  obtain ⟨c, cs, rfl⟩ := List.exists_cons_of_ne_nil (List.ne_nil_of_mem hd)
  have hstart : isNumberStart c = true := by
    rcases hplain c List.mem_cons_self with hdigit | rfl
    · simp [isNumberStart, hdigit]
    · exact absurd rfl hpoint
  refine .number ⟨c, cs, String.toList_ofList, hstart⟩ ?_ ?_
  · rw [String.toList_ofList]
    exact h.1
  · rw [String.toList_ofList]
    exact (read_isSome hplain).mpr h.2

theorem written_number (h : IsNumberText w) : WrittenBy respelled (.number, String.ofList w) := by
  by_cases hpoint : w.head? = some '.'
  · intro rest hrest
    have hrespelled : respelled (.number, String.ofList w) = '_' :: w := by
      rw [respelled, String.toList_ofList, if_pos ⟨rfl, hpoint⟩]
    rw [hrespelled]
    exact leads_pointed h hrest
  · refine scannable_written (scannable_unpointed h hpoint) fun hpointed => hpoint ?_
    rw [String.toList_ofList] at hpointed
    exact hpointed.2

end Numbers

theorem scannable_plain_written (hs : Scannable s) (hk : s.1.isPlain = true) : WrittenBy respelled s := by
  refine scannable_written hs fun hnumber => ?_
  rw [hnumber.1] at hk
  cases hk

/-- Whatever a token was cut from, it is a piece again when it is written. -/
theorem written_leads (h : Leads piece rest) (hs : piece.token? = some s) : WrittenBy respelled s := by
  cases h with
  | blank hc => cases hs
  | comment hfirst => cases hs
  | @string body rest hfirst =>
    cases hs
    exact scannable_written (.text (by rwa [String.toList_ofList])) (by simp)
  | number hc hw hn =>
    cases hs
    exact written_number (isNumberText_filter hw.inside hn)
  | @word c w rest hw =>
    cases hs
    have hplain := ofWord_plain (String.ofList (c :: w))
    refine scannable_plain_written (.word ?_ ?_ rfl (isPlain_ne_string hplain)) hplain
    · simp [String.ofList_eq_empty_iff]
    · rw [String.toList_ofList]
      exact hw.inside
  | symbol hc hslash =>
    cases hs
    exact scannable_plain_written (.symbol hc) (ofSymbol_plain hc)

/-- The tokens of the pieces of a text, all of them written. -/
theorem written_cuts {text : List Char} {pieces : List Piece} (h : Cuts text pieces rest) (p : Position) :
    ∀ t ∈ tokensAt p pieces, WrittenBy respelled (spelling t) := by
  induction h generalizing p with
  | done rest => exact fun _ ht => nomatch ht
  | piece hp h ih =>
    refine List.forall_mem_append.mpr ⟨?_, ih _⟩
    intro t ht
    obtain ⟨s, hs, rfl⟩ := Option.map_eq_some_iff.mp (Option.mem_toList.mp ht)
    exact written_leads hp hs

/-- Scanning what the tokens of a text are written as gives the same tokens, at other places. -/
theorem scan_rewrite (source : String) (tokens : List Token) (h : scan source = .ok tokens) :
    ∃ again, scan (rewrite tokens) = .ok again ∧ again.map spelling = tokens.map spelling := by
  obtain ⟨pieces, hcuts, rfl⟩ := scan_ok_iff.mp h
  have hkept : (tokensAt .start pieces ++ [eof (Position.start.after source.toList)]).filter (·.kind ≠ .eof) =
      tokensAt .start pieces := by
    have hnone := List.filter_eq_self.mpr fun t ht => decide_eq_true (tokensAt_ne_eof hcuts .start t ht)
    rw [List.filter_append, hnone]
    simp [eof]
  have hwritten : ∀ s ∈ (tokensAt .start pieces).map spelling, WrittenBy respelled s :=
    List.forall_mem_map.mpr (written_cuts hcuts .start)
  obtain ⟨ts, q, hscan, hmap⟩ := scanFrom_intercalate hwritten .start (Nat.lt_succ_self _)
  refine ⟨ts ++ [eof q], ?_, ?_⟩
  · unfold scan rewrite
    rw [hkept, String.toList_ofList]
    rw [List.map_map] at hscan
    exact hscan
  · rw [List.map_append, List.map_append, hmap]
    rfl

/-- Numbers with a point at either end, a slash and a star apart, and tokens with nothing between them. -/
def crowded : String := "_.5 5.\"a\nb\"/ */**/let_1"

def crowdedTokens : List Token :=
  [⟨.number, ".5", ⟨1, 1⟩⟩, ⟨.number, "5.", ⟨1, 5⟩⟩, ⟨.string, "a\nb", ⟨1, 7⟩⟩,
    ⟨.binaryOperator, "/", ⟨2, 3⟩⟩,
    ⟨.binaryOperator, "*", ⟨2, 5⟩⟩, ⟨.letWord, "let", ⟨2, 10⟩⟩, ⟨.number, "1", ⟨2, 13⟩⟩, eof ⟨2, 15⟩]

theorem scan_rewrite_crowded : scan crowded = .ok crowdedTokens ∧
    rewrite crowdedTokens = "_.5 5. \"a\nb\" / * let 1" ∧
    ∃ again, scan (rewrite crowdedTokens) = .ok again ∧ again.map spelling = crowdedTokens.map spelling := by
  have hscan : scan crowded = .ok crowdedTokens := by rfl
  exact ⟨hscan, by rfl, scan_rewrite crowded crowdedTokens hscan⟩

end Proofs.Rescanning

end Scriptlet
