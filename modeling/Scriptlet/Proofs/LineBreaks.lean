import Scriptlet.Proofs.LexicalGrammar

namespace Scriptlet
open Scriptlet.Text

/-- The same column, some lines further down. -/
def Text.Position.down (k : Nat) (p : Position) : Position :=
  ⟨p.line + k, p.column⟩

def Token.down (k : Nat) (t : Token) : Token :=
  { t with position := t.position.down k }

def Token.ScanError.down (k : Nat) (e : Token.ScanError) : Token.ScanError :=
  { e with position := e.position.down k }

end Scriptlet

namespace Scriptlet.Proofs.LineBreaks
open Scriptlet.Text Scriptlet.Token LexicalGrammar

section Positions

theorem next_down (k : Nat) (p : Position) (c : Char) : (p.down k).next c = (p.next c).down k := by
  unfold Position.next
  split
  · simp only [Position.down, Nat.add_right_comm]
  · rfl

theorem after_down (k : Nat) (p : Position) (cs : List Char) :
    (p.down k).after cs = (p.after cs).down k := by
  induction cs generalizing p with
  | nil => rfl
  | cons c cs ih => rw [Position.after_cons, Position.after_cons, next_down, ih]

theorem line_after (p : Position) (cs : List Char) : (p.after cs).line = p.line + cs.count '\n' := by
  induction cs generalizing p with
  | nil => rfl
  | cons c cs ih =>
    rw [Position.after_cons, ih, Position.next]
    split
    · rename_i hc
      rw [hc, List.count_cons_self]
      simp only
      omega
    · rename_i hc
      rw [List.count_cons_of_ne hc]

/-- Behind a line break the columns begin anew, and only the lines count on. -/
theorem after_break (cs : List Char) :
    Position.start.after (cs ++ ['\n']) = Position.start.down (cs.count '\n' + 1) := by
  have hline := line_after .start cs
  rw [Position.after_append, Position.after_cons, Position.after_nil, Position.next, if_pos rfl, hline]
  rfl

theorem after_join (s t : List Char) : Position.start.after (s ++ '\n' :: t) =
    (Position.start.after t).down (s.count '\n' + 1) := by
  rw [← after_down, ← after_break, ← Position.after_append, List.append_assoc, List.singleton_append]

theorem tokenAt_down (k : Nat) (p : Position) (piece : Piece) :
    tokenAt (p.down k) piece = (tokenAt p piece).map (Token.down k) := by
  unfold tokenAt
  cases piece.token? with
  | none => rfl
  | some s => rfl

theorem tokensAt_down (k : Nat) (p : Position) (pieces : List Piece) :
    tokensAt (p.down k) pieces = (tokensAt p pieces).map (Token.down k) := by
  induction pieces generalizing p with
  | nil => rfl
  | cons piece pieces ih =>
    rw [tokensAt, tokensAt, List.map_append, tokenAt_down, after_down, ih]

theorem tokensAt_append (p : Position) (ps qs : List Piece) :
    tokensAt p (ps ++ qs) = tokensAt p ps ++ tokensAt (p.after (lexemes ps)) qs := by
  induction ps generalizing p with
  | nil => rfl
  | cons piece ps ih =>
    rw [List.cons_append, tokensAt, tokensAt, ih, List.append_assoc, lexemes_cons, Position.after_append]

end Positions

section Joints

variable {piece : Piece} {ps qs : List Piece} {s t rest : List Char}

theorem run_break {sort : Char → Bool} {w : List Char} (h : Run sort w rest) (hsort : sort '\n' = false)
    (t : List Char) : Run sort w (rest ++ '\n' :: t) := by
  refine ⟨h.inside, ?_⟩
  intro c cs heq
  cases rest with
  | nil =>
    obtain ⟨rfl, _⟩ := List.cons.inj heq
    exact hsort
  | cons d ds =>
    obtain ⟨rfl, _⟩ := List.cons.inj heq
    exact h.longest d ds rfl

/-- A piece that ends with the text ends as well before a line break. -/
theorem leads_break (h : Leads piece rest) (t : List Char) : Leads piece (rest ++ '\n' :: t) := by
  cases h with
  | blank hc => exact .blank hc
  | comment hfirst => exact .comment hfirst
  | string hfirst => exact .string hfirst
  | number hc hw hn => exact .number hc (run_break hw (by decide) t) hn
  | word hw => exact .word (run_break hw (by decide) t)
  | symbol hc hslash =>
    refine .symbol hc ?_
    rintro ⟨hc, cs, hrest⟩
    cases rest with
    | nil => cases hrest
    | cons d ds =>
      obtain ⟨rfl, _⟩ := List.cons.inj hrest
      exact hslash ⟨hc, ds, rfl⟩

theorem cuts_break (h : Cuts s ps rest) (t : List Char) : Cuts (s ++ '\n' :: t) ps (rest ++ '\n' :: t) := by
  induction h with
  | done rest => exact .done _
  | piece hp h ih =>
    rw [List.append_assoc]
    exact .piece (leads_break hp t) ih

theorem cuts_append (hs : Cuts s ps t) (ht : Cuts t qs rest) : Cuts s (ps ++ qs) rest := by
  induction hs with
  | done t => exact ht
  | piece hp h ih => exact .piece hp (ih ht)

/-- The piece of a line break. -/
def lineBreak : Piece := ⟨['\n'], none⟩

/-- Two texts with a line break between them are cut as each of them is cut alone. -/
theorem cuts_join (hs : Cuts s ps []) (ht : Cuts t qs rest) :
    Cuts (s ++ '\n' :: t) (ps ++ lineBreak :: qs) rest := by
  have hbreak : Leads lineBreak t := .blank (by decide)
  exact cuts_append (cuts_break hs t) (.piece hbreak ht)

theorem lexemes_join (hs : Cuts s ps []) (qs : List Piece) :
    lexemes (ps ++ lineBreak :: qs) = s ++ '\n' :: lexemes qs := by
  have htext := text_eq hs
  rw [List.append_nil] at htext
  rw [htext]
  simp [lineBreak]

theorem tokensAt_join (hs : Cuts s ps []) (qs : List Piece) :
    tokensAt .start (ps ++ lineBreak :: qs) =
      tokensAt .start ps ++ (tokensAt .start qs).map (Token.down (s.count '\n' + 1)) := by
  have htext := text_eq hs
  rw [List.append_nil] at htext
  rw [tokensAt_append, ← htext, ← tokensAt_down, ← after_break, Position.after_append]
  rfl

theorem toList_join (s t : String) : (s ++ "\n" ++ t).toList = s.toList ++ '\n' :: t.toList := by
  simp

end Joints

/-- Scanning goes line by line: behind a text with tokens and a line break, another text has the
tokens or the error that it has alone, only further down. -/
theorem scan_join (s t : String) (ts : List Token) (h : scan s = .ok ts) :
    (∀ us, scan t = .ok us → scan (s ++ "\n" ++ t) =
      .ok (ts.dropLast ++ us.map (Token.down (s.toList.count '\n' + 1)))) ∧
    ∀ e, scan t = .error e → scan (s ++ "\n" ++ t) = .error (e.down (s.toList.count '\n' + 1)) := by
  obtain ⟨ps, hps, rfl⟩ := scan_ok_iff.mp h
  constructor
  · intro us hus
    obtain ⟨qs, hqs, rfl⟩ := scan_ok_iff.mp hus
    refine scan_ok_iff.mpr ⟨ps ++ lineBreak :: qs, ?_, ?_⟩
    · rw [toList_join]
      exact cuts_join hps hqs
    · rw [toList_join, tokensAt_join hps, after_join, List.dropLast_concat, List.map_append,
        List.append_assoc]
      rfl
  · intro e he
    obtain ⟨qs, rest, hqs, hblocked, hplace⟩ := scan_error_iff.mp he
    refine scan_error_iff.mpr ⟨ps ++ lineBreak :: qs, rest, ?_, hblocked, ?_⟩
    · rw [toList_join]
      exact cuts_join hps hqs
    · rw [lexemes_join hps, after_join, ← hplace]
      rfl

/-- Line breaks inside of a string and of a comment, before a word. -/
def brokenLines : String := "\"a\nb\" /*\n*/ x"

theorem scan_join_brokenLines : ∃ ts us,
    scan brokenLines = .ok ts ∧ scan " /y" = .ok us ∧
    scan (brokenLines ++ "\n" ++ " /y") = .ok (ts.dropLast ++ us.map (Token.down 3)) ∧
    scan "y\n1..2" = .error ⟨⟨2, 1⟩, .malformedNumber "1..2"⟩ ∧
    scan (brokenLines ++ "\n" ++ "y\n1..2") = .error ⟨⟨5, 1⟩, .malformedNumber "1..2"⟩ := by
  have hbroken : scan brokenLines =
      .ok [⟨.string, "a\nb", ⟨1, 1⟩⟩, ⟨.identifier, "x", ⟨3, 4⟩⟩, eof ⟨3, 5⟩] := by rfl
  have hwords : scan " /y" =
      .ok [⟨.binaryOperator, "/", ⟨1, 2⟩⟩, ⟨.identifier, "y", ⟨1, 3⟩⟩, eof ⟨1, 4⟩] := by rfl
  have hnumber : scan "y\n1..2" = .error ⟨⟨2, 1⟩, .malformedNumber "1..2"⟩ := by rfl
  have hlines : brokenLines.toList.count '\n' + 1 = 3 := by rfl
  have htokens := (scan_join brokenLines " /y" _ hbroken).1 _ hwords
  have herror := (scan_join brokenLines "y\n1..2" _ hbroken).2 _ hnumber
  rw [hlines] at htokens herror
  exact ⟨_, _, hbroken, hwords, htokens, hnumber, herror⟩

end Scriptlet.Proofs.LineBreaks
