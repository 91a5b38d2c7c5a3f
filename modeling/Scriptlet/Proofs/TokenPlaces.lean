import Mathlib.Data.List.Forall2
import Scriptlet.Proofs.LineBreaks

namespace Scriptlet

/-- The position of an offset, counted in the text before it: its lines, and the characters behind the last
line feed. -/
def Text.placeOf (text : List Char) (offset : Nat) : Position where
  line := 1 + (text.take offset).count '\n'
  column := 1 + ((text.take offset).reverse.takeWhile (· ≠ '\n')).length

namespace Token

/-- What may stand between tokens: blanks and comments. -/
inductive IsTrivia : List Char → Prop where
  | nil : IsTrivia []
  | blank {c : Char} {cs : List Char} (hc : c ∈ [' ', '\t', '\n', '\r']) (h : IsTrivia cs) :
      IsTrivia (c :: cs)
  | comment {body cs : List Char} (hbody : ¬['*', '/'] <:+: body) (h : IsTrivia cs) :
      IsTrivia ('/' :: '*' :: (body ++ '*' :: '/' :: cs))

/-- The characters spell the token: a string in its quotes, a number with underscores anywhere, the end with
nothing and all else as its text. -/
def SpelledBy (lexeme : List Char) (t : Token) : Prop :=
  match t.kind with
  | .string => lexeme = '"' :: (t.text.toList ++ ['"'])
  | .number => lexeme.filter (· ≠ '_') = t.text.toList
  | .eof => lexeme = []
  | _ => lexeme = t.text.toList

/-- Some characters of a text, and the offset of the first. -/
structure Site where
  offset : Nat
  lexeme : List Char

/-- An offset without characters. -/
def Site.empty (offset : Nat) : Site :=
  ⟨offset, []⟩

/-- The offset behind the characters. -/
def Site.stop (s : Site) : Nat :=
  s.offset + s.lexeme.length

/-- The token is spelled at the site and has its position. -/
structure StandsAt (text : List Char) (s : Site) (t : Token) : Prop where
  there : s.lexeme <+: text.drop s.offset
  spelled : SpelledBy s.lexeme t
  place : t.position = Text.placeOf text s.offset

/-- From one site to the next there are only blanks and comments. -/
structure Follows (text : List Char) (s s' : Site) : Prop where
  apart : s.stop ≤ s'.offset
  trivia : IsTrivia (text.extract s.stop s'.offset)

/-- Tokens laid out over a whole text, the end at its end. -/
structure LaidOut (text : List Char) (sites : List Site) (tokens : List Token) : Prop where
  standing : List.Forall₂ (StandsAt text) sites tokens
  increasing : sites.Pairwise fun s s' => s.offset < s'.offset
  gaps : (.empty 0 :: sites).IsChain (Follows text)
  lastSite : sites.getLast? = some (.empty text.length)
  lastToken : tokens.getLast? = some (eof (Text.placeOf text text.length))

theorem IsTrivia.append {cs ds : List Char} (hcs : IsTrivia cs) (hds : IsTrivia ds) :
    IsTrivia (cs ++ ds) := by
  induction hcs with
  | nil => exact hds
  | blank hc _ ih => exact .blank hc ih
  | @comment body cs hbody _ ih =>
    have hcomment := IsTrivia.comment hbody ih
    simpa using hcomment

end Token

namespace Proofs.TokenPlaces
open Scriptlet.Text Scriptlet.Token LexicalGrammar LineBreaks

section Places

/-- Counting along the way gives what can be counted backwards from the end. -/
theorem after_reverse (cs : List Char) : Position.start.after cs.reverse =
    ⟨1 + cs.count '\n', 1 + (cs.takeWhile (· ≠ '\n')).length⟩ := by
  induction cs with
  | nil => rfl
  | cons c cs ih =>
    rw [List.reverse_cons, Position.after_append, ih, Position.after_cons, Position.after_nil, Position.next]
    by_cases hc : c = '\n'
    · subst hc
      simp [Nat.add_assoc]
    · simp [hc, Nat.add_assoc]

theorem after_take (text : List Char) (offset : Nat) :
    Position.start.after (text.take offset) = placeOf text offset := by
  have h := after_reverse (text.take offset).reverse
  rw [List.reverse_reverse, List.count_reverse] at h
  exact h

theorem after_front (before text : List Char) :
    Position.start.after before = placeOf (before ++ text) before.length := by
  rw [← after_take, List.take_left]

end Places

section Pieces

variable {piece : Piece} {rest : List Char}

theorem trivia_leads (h : Leads piece rest) (hnone : piece.token? = none) : IsTrivia piece.lexeme := by
  cases h with
  | blank hc => exact .blank hc .nil
  | comment hfirst => exact .comment hfirst .nil
  | string hfirst => cases hnone
  | number hc hw hn => cases hnone
  | word hw => cases hnone
  | symbol hc hslash => cases hnone

theorem spelledBy_plain {k : Kind} (hk : k.isPlain = true) (s : String) (p : Position) :
    SpelledBy s.toList ⟨k, s, p⟩ := by
  cases k <;> first | rfl | cases hk

theorem spelled_leads (h : Leads piece rest) {k : Kind} {s : String} (hs : piece.token? = some (k, s))
    (p : Position) :
    SpelledBy piece.lexeme ⟨k, s, p⟩ := by
  cases h with
  | blank hc => cases hs
  | comment hfirst => cases hs
  | @string body rest hfirst =>
    cases hs
    simp [SpelledBy]
  | number hc hw hn =>
    cases hs
    simp [SpelledBy]
  | @word c w rest hw =>
    cases hs
    simpa using spelledBy_plain (ofWord_plain _) (String.ofList (c :: w)) p
  | @symbol c k rest hc hslash =>
    cases hs
    simpa using spelledBy_plain (ofSymbol_plain hc) (String.singleton c) p

end Pieces

section Sites

/-- The site of a piece at an offset, if it gives a token. -/
def siteAt (offset : Nat) (piece : Piece) : List Site :=
  (piece.token?.map fun _ => Site.mk offset piece.lexeme).toList

/-- The sites of the pieces that give tokens, from an offset on. -/
def sitesAt (offset : Nat) : List Piece → List Site
  | [] => []
  | piece :: pieces => siteAt offset piece ++ sitesAt (offset + piece.lexeme.length) pieces

variable {text rest : List Char} {pieces : List Piece}

theorem standing_cuts (h : Cuts text pieces rest) (before : List Char) :
    List.Forall₂ (StandsAt (before ++ text)) (sitesAt before.length pieces)
      (tokensAt (Position.start.after before) pieces) := by
  induction h generalizing before with
  | done rest => exact .nil
  | @piece piece text rest pieces hp h ih =>
    have hlater := ih (before ++ piece.lexeme)
    rw [List.append_assoc, List.length_append, Position.after_append] at hlater
    rw [sitesAt, tokensAt, siteAt, tokenAt]
    cases htoken : piece.token? with
    | none => exact hlater
    | some s =>
      refine .cons ⟨?_, spelled_leads hp htoken _, after_front before _⟩ hlater
      rw [List.drop_left]
      exact List.prefix_append _ _

theorem increasing_cuts (h : Cuts text pieces rest) (offset : Nat) :
    (sitesAt offset pieces ++ [Site.empty (offset + text.length)]).Pairwise
      (fun s s' => s.offset < s'.offset) ∧
      ∀ s ∈ sitesAt offset pieces ++ [Site.empty (offset + text.length)], offset ≤ s.offset := by
  induction h generalizing offset with
  | done rest => simp [sitesAt, Site.empty]
  | @piece piece text rest pieces hp h ih =>
    have hpos := List.length_pos_iff.mpr (lexeme_ne_nil hp)
    obtain ⟨hlater, hbehind⟩ := ih (offset + piece.lexeme.length)
    have hend : offset + piece.lexeme.length + text.length = offset + (piece.lexeme ++ text).length := by
      rw [List.length_append, Nat.add_assoc]
    rw [hend] at hlater hbehind
    rw [sitesAt, siteAt]
    cases piece.token? with
    | none => exact ⟨hlater, fun s hs => Nat.le_trans (Nat.le_add_right _ _) (hbehind s hs)⟩
    | some t =>
      refine ⟨.cons (fun s hs => ?_) hlater, List.forall_mem_cons.mpr ⟨Nat.le_refl _, fun s hs => ?_⟩⟩
      · exact Nat.lt_of_lt_of_le (Nat.lt_add_of_pos_right hpos) (hbehind s hs)
      · exact Nat.le_trans (Nat.le_add_right _ _) (hbehind s hs)

theorem extract_front (before text : List Char) (i : Nat) :
    (before ++ text).extract i before.length = before.drop i := by
  by_cases hi : i ≤ before.length
  · rw [List.extract_eq_take_drop, List.drop_append_of_le_length hi, List.take_left' (by simp)]
  · simp [List.extract_eq_take_drop, Nat.le_of_not_le hi]

/-- Behind a site, the characters that were passed already are blanks and comments; so are those up to the
next. -/
theorem gaps_cuts (h : Cuts text pieces rest) (hrest : rest = []) (before : List Char) (s : Site)
    (hs : s.stop ≤ before.length) (htrivia : IsTrivia (before.drop s.stop)) :
    (s :: (sitesAt before.length pieces ++ [Site.empty (before ++ text).length])).IsChain
      (Follows (before ++ text)) := by
  induction h generalizing before s with
  | done rest =>
    subst hrest
    refine .cons_cons ⟨?_, ?_⟩ (.singleton _)
    · simpa [Site.empty] using hs
    · have hextract := extract_front before [] s.stop
      rw [List.append_nil] at hextract ⊢
      change IsTrivia (before.extract s.stop before.length)
      rw [hextract]
      exact htrivia
  | @piece piece text rest pieces hp h ih =>
    rw [sitesAt, siteAt]
    have hassoc : before ++ (piece.lexeme ++ text) = (before ++ piece.lexeme) ++ text :=
      (List.append_assoc ..).symm
    rw [hassoc, ← List.length_append]
    cases htoken : piece.token? with
    | none =>
      refine ih hrest (before ++ piece.lexeme) s ?_ ?_
      · rw [List.length_append]
        omega
      · rw [List.drop_append_of_le_length hs]
        exact htrivia.append (trivia_leads hp htoken)
    | some t =>
      refine .cons_cons ⟨hs, ?_⟩ (ih hrest (before ++ piece.lexeme) ⟨before.length, piece.lexeme⟩ ?_ ?_)
      · rw [List.append_assoc, extract_front]
        exact htrivia
      · simp [Site.stop]
      · simpa [Site.stop] using IsTrivia.nil

end Sites

/-- A text that can be cut up to its end has its tokens laid out over it. -/
theorem laidOut_cuts {text : List Char} {pieces : List Piece} (h : Cuts text pieces []) :
    LaidOut text (sitesAt 0 pieces ++ [Site.empty text.length])
      (tokensAt .start pieces ++ [eof (Position.start.after text)]) where
  standing := by
    refine List.rel_append (standing_cuts h []) (.cons ⟨?_, rfl, ?_⟩ .nil)
    · exact List.nil_prefix
    · change Position.start.after text = placeOf text text.length
      rw [← after_take, List.take_length]
  increasing := by simpa using (increasing_cuts h 0).1
  gaps := gaps_cuts h rfl [] (Site.empty 0) (Nat.le_refl 0) .nil
  lastSite := List.getLast?_concat
  lastToken := by
    rw [List.getLast?_concat, ← after_take, List.take_length]

/-- Positions are exact. Every token of a text stands at an offset of its own, further on than those before
it, with the characters there that spell it and the position that can be counted there; there is nothing but
blanks and comments between one and the next, and the end stands at the end. An error is placed at the offset
up to which the text can be cut and at which no piece begins. -/
theorem positions_exact (source : String) :
    (∀ tokens, scan source = .ok tokens → ∃ sites, LaidOut source.toList sites tokens) ∧
    ∀ e, scan source = .error e → ∃ offset pieces, Cuts source.toList pieces (source.toList.drop offset) ∧
      lexemes pieces = source.toList.take offset ∧ Blocked (source.toList.drop offset) e.cause ∧
      e.position = placeOf source.toList offset := by
  constructor
  · intro tokens h
    obtain ⟨pieces, hcuts, rfl⟩ := scan_ok_iff.mp h
    exact ⟨_, laidOut_cuts hcuts⟩
  · intro e h
    obtain ⟨pieces, rest, hcuts, hblocked, hplace⟩ := scan_error_iff.mp h
    have htext := text_eq hcuts
    have hdrop : source.toList.drop (lexemes pieces).length = rest := by rw [htext, List.drop_left]
    have htake : source.toList.take (lexemes pieces).length = lexemes pieces := by rw [htext, List.take_left]
    refine ⟨(lexemes pieces).length, pieces, ?_, htake.symm, ?_, ?_⟩
    · rw [hdrop]
      exact hcuts
    · rw [hdrop]
      exact hblocked
    · rw [hplace, ← after_take, htake]

/-- Line feeds inside of a string and of a comment, a letter that is not ASCII, and a number with an
underscore. -/
def scattered : String := "é \"a\nb\" /*\n*/ 1_0"

def scatteredTokens : List Token :=
  [⟨.identifier, "é", ⟨1, 1⟩⟩, ⟨.string, "a\nb", ⟨1, 3⟩⟩, ⟨.number, "10", ⟨3, 4⟩⟩, eof ⟨3, 7⟩]

/-- A comment that does not end, in the second line. -/
def unclosed : String := "x\n /* y"

theorem positions_exact_scattered :
    (scan scattered = .ok scatteredTokens ∧ ∃ sites, LaidOut scattered.toList sites scatteredTokens) ∧
    scan unclosed = .error ⟨⟨2, 2⟩, .unterminatedComment⟩ ∧
    ∃ offset pieces, Cuts unclosed.toList pieces (unclosed.toList.drop offset) ∧
      lexemes pieces = unclosed.toList.take offset ∧
        Blocked (unclosed.toList.drop offset) .unterminatedComment ∧
      ⟨2, 2⟩ = placeOf unclosed.toList offset := by
  have htokens : scan scattered = .ok scatteredTokens := by rfl
  have herror : scan unclosed = .error ⟨⟨2, 2⟩, .unterminatedComment⟩ := by rfl
  exact ⟨⟨htokens, (positions_exact scattered).1 _ htokens⟩, herror, (positions_exact unclosed).2 _ herror⟩

end Proofs.TokenPlaces

end Scriptlet
