import Scriptlet.Store.Display

namespace Scriptlet.Json

mutual

/-- The strings in a value, keys included, in the order in which they are written. -/
def strings : Json → List String
  | text t => [t]
  | array items => stringsOfItems items
  | object entries => stringsOfEntries entries
  | _ => []

/-- The strings in some values. -/
def stringsOfItems : List Json → List String
  | [] => []
  | x :: xs => strings x ++ stringsOfItems xs

/-- The strings in some entries. -/
def stringsOfEntries : List (String × Json) → List String
  | [] => []
  | (k, v) :: es => k :: (strings v ++ stringsOfEntries es)

end

mutual

/-- The text of a value whose lines after the first stand at `level`, with its keys written by `key`. -/
def writeWith (key : String → List Char) (level : Nat) : Json → List Char
  | null => "null".toList
  | bool b => if b then "true".toList else "false".toList
  | integer n => (toString n).toList
  | real x => ((Decimal.jsonText x).getD "null").toList
  | text s => quote s
  | array [] => ['[', ']']
  | array (x :: xs) =>
    '[' :: '\n' :: (indent (level + 1) ++ writeWith key (level + 1) x ++ writeItemsWith key (level + 1) xs ++
      '\n' :: (indent level ++ [']']))
  | object [] => ['{', '}']
  | object ((k, v) :: es) =>
    '{' :: '\n' :: (indent (level + 1) ++ key k ++ ':' :: ' ' :: writeWith key (level + 1) v ++
      writeEntriesWith key (level + 1) es ++ '\n' :: (indent level ++ ['}']))

/-- The items of an array after its first. -/
def writeItemsWith (key : String → List Char) (level : Nat) : List Json → List Char
  | [] => []
  | x :: xs => ',' :: '\n' :: (indent level ++ writeWith key level x ++ writeItemsWith key level xs)

/-- The entries of an object after its first. -/
def writeEntriesWith (key : String → List Char) (level : Nat) : List (String × Json) → List Char
  | [] => []
  | (k, v) :: es =>
    ',' :: '\n' ::
      (indent level ++ key k ++ ':' :: ' ' :: writeWith key level v ++ writeEntriesWith key level es)

end

/-- A key without the two quotes around it, unless it is empty. -/
def bareKey (k : String) : List Char :=
  if k = "" then quote k else (quote k).tail.dropLast

end Scriptlet.Json

namespace Scriptlet.Proofs.BareKeys
open Json

variable {cs rest w : List Char} {c : Char} {n m : Nat}

section Search

/-- The first quote in a text is not followed by a colon. -/
def Quiet (cs : List Char) : Prop :=
  ∀ rest, cs.dropWhile (· ≠ '"') ≠ '"' :: ':' :: rest

theorem rest_length (h : cs.dropWhile (· ≠ '"') = '"' :: ':' :: rest) : rest.length + 2 ≤ cs.length := by
  have hle : (cs.dropWhile (· ≠ '"')).length ≤ cs.length := (List.dropWhile_sublist _).length_le
  rw [h, List.length_cons, List.length_cons] at hle
  exact hle

/-- The number of steps does not matter once it reaches the length of the text. -/
theorem bareKeysWithin_stable (hn : cs.length ≤ n) (hm : cs.length ≤ m) :
    bareKeysWithin n cs = bareKeysWithin m cs := by
  induction n generalizing m cs with
  | zero =>
    obtain rfl : cs = [] := by simpa using hn
    cases m <;> rfl
  | succ n ih =>
    cases m with
    | zero =>
      obtain rfl : cs = [] := by simpa using hm
      rfl
    | succ m =>
      cases cs with
      | nil => rfl
      | cons c cs =>
        simp only [List.length_cons, Nat.add_le_add_iff_right] at hn hm
        unfold bareKeysWithin
        split
        · split
          · rename_i rest _ hdrop
            have hlength := rest_length hdrop
            rw [ih (show rest.length ≤ n by omega) (show rest.length ≤ m by omega)]
          · rw [ih hn hm]
        · rw [ih hn hm]

theorem bareKeysWithin_eq (h : cs.length ≤ n) : bareKeysWithin n cs = bareKeys cs :=
  bareKeysWithin_stable h (Nat.le_refl _)

theorem bareKeys_nil : bareKeys [] = [] := rfl

theorem bareKeys_cons (hc : c ≠ '"') (cs : List Char) : bareKeys (c :: cs) = c :: bareKeys cs := by
  simp [bareKeys, bareKeysWithin, hc]

theorem bareKeys_append (hw : '"' ∉ w) (cs : List Char) : bareKeys (w ++ cs) = w ++ bareKeys cs := by
  induction w with
  | nil => rfl
  | cons c w ih =>
    obtain ⟨hc, hw⟩ := List.ne_and_not_mem_of_not_mem_cons hw
    rw [List.cons_append, bareKeys_cons hc.symm, ih hw, List.cons_append]

theorem takeWhile_quote (hw : '"' ∉ w) (cs : List Char) : (w ++ '"' :: cs).takeWhile (· ≠ '"') = w := by
  have hall : ∀ c ∈ w, decide (c ≠ '"') = true := fun c hc => by
    simpa using fun heq : c = '"' => hw (heq ▸ hc)
  rw [List.takeWhile_append_of_pos hall]
  simp

theorem dropWhile_append (hw : '"' ∉ w) (cs : List Char) :
    (w ++ cs).dropWhile (· ≠ '"') = cs.dropWhile (· ≠ '"') := by
  apply List.dropWhile_append_of_pos
  intro c hc
  simpa using fun heq : c = '"' => hw (heq ▸ hc)

/-- A quote stays if what follows it up to the next one is no key. -/
theorem bareKeys_quote (h : Quiet cs) : bareKeys ('"' :: cs) = '"' :: bareKeys cs := by
  rw [bareKeys, List.length_cons, bareKeysWithin, if_pos rfl]
  split
  · rename_i hdrop
    exact absurd hdrop (h _)
  · rfl

theorem bareKeys_twoQuotes (cs : List Char) : bareKeys ('"' :: '"' :: cs) = '"' :: bareKeys ('"' :: cs) := by
  rw [bareKeys, List.length_cons, bareKeysWithin, if_pos rfl]
  simp
  rfl

theorem bareKeys_key (hne : w ≠ []) (hw : '"' ∉ w) (cs : List Char) :
    bareKeys ('"' :: (w ++ '"' :: ':' :: cs)) = w ++ ':' :: bareKeys cs := by
  have htake := takeWhile_quote hw (':' :: cs)
  have hdrop : (w ++ '"' :: ':' :: cs).dropWhile (· ≠ '"') = '"' :: ':' :: cs := by
    rw [dropWhile_append hw]
    simp
  obtain ⟨k, ks, rfl⟩ := List.exists_cons_of_ne_nil hne
  rw [bareKeys, List.length_cons, bareKeysWithin, if_pos rfl, htake, hdrop]
  simp only
  rw [bareKeysWithin_eq]
  simp
  omega

end Search

section Strings

/-- A text that may follow a string: it has no colon in front, and the quote at the end of the string does not
pair with its first quote. -/
structure Calm (cs : List Char) : Prop where
  noColon : cs.head? ≠ some ':'
  quiet : Quiet cs

theorem quiet_append (hw : '"' ∉ w) (h : Quiet cs) : Quiet (w ++ cs) := by
  intro rest
  rw [dropWhile_append hw]
  exact h rest

theorem quiet_cons (hc : c ≠ '"') (h : Quiet cs) : Quiet (c :: cs) :=
  quiet_append (w := [c]) (by simpa using hc.symm) h

theorem quiet_quote (h : cs.head? ≠ some ':') : Quiet ('"' :: cs) := by
  intro rest heq
  rw [List.dropWhile_cons_of_neg (by simp)] at heq
  cases heq
  exact h rfl

theorem calm_cons (hquote : c ≠ '"') (hcolon : c ≠ ':') (h : Quiet cs) : Calm (c :: cs) :=
  ⟨by simpa using hcolon, quiet_cons hquote h⟩

theorem quote_eq (t : String) : quote t = '"' :: (t.toList.flatMap escape ++ ['"']) := rfl

theorem quote_not_mem_hex {n : Nat} (h : n < 0x20) : '"' ∉ Nat.toDigits 16 n := by
  decide +revert

/-- A character stands for itself or is written with a backslash in front, and brings a quote only if it is
one. -/
theorem escape_cases (c : Char) : escape c = [c] ∨ ∃ ds, escape c = '\\' :: ds ∧ (c ≠ '"' → '"' ∉ ds) := by
  fun_cases escape c with
  | case1 hquote => exact .inr ⟨['"'], rfl, fun hc => absurd hquote hc⟩
  | case8 _ _ _ _ _ _ _ hlow =>
    refine .inr ⟨_, rfl, fun _ => ?_⟩
    simp [quote_not_mem_hex hlow]
  | case9 => exact .inl rfl
  | _ => exact .inr ⟨_, rfl, fun _ => by simp⟩

theorem quote_not_mem_escape (hc : c ≠ '"') : '"' ∉ escape c := by
  rcases escape_cases c with hself | ⟨ds, hds, hquote⟩
  · simpa [hself] using hc.symm
  · simpa [hds] using hquote hc

theorem quote_not_mem_flatMap {t : List Char} (ht : '"' ∉ t) : '"' ∉ t.flatMap escape := by
  intro hmem
  obtain ⟨c, hc, hescape⟩ := List.mem_flatMap.mp hmem
  exact quote_not_mem_escape (fun heq => ht (heq ▸ hc)) hescape

/-- An escaped text begins with a colon only if the text does. -/
theorem head_flatMap {t : List Char} (ht : t.head? ≠ some ':') (cs : List Char) :
    (t.flatMap escape ++ '"' :: cs).head? ≠ some ':' := by
  cases t with
  | nil => simp
  | cons c t =>
    rw [List.flatMap_cons]
    rcases escape_cases c with hself | ⟨ds, hds, _⟩
    · simpa [hself] using ht
    · simp [hds]

theorem flatMap_ne_nil {k : String} (hk : k ≠ "") : k.toList.flatMap escape ≠ [] := by
  intro hnil
  cases hchars : k.toList with
  | nil => exact hk (String.toList_eq_nil_iff.mp hchars)
  | cons c t =>
    rw [hchars, List.flatMap_cons] at hnil
    rcases escape_cases c with hself | ⟨ds, hds, _⟩
    · simp [hself] at hnil
    · simp [hds] at hnil

theorem quiet_string {t : String} (ht : t.toList.head? ≠ some ':') (cs : List Char) :
    Quiet (quote t ++ cs) := by
  rw [quote_eq, List.cons_append, List.append_assoc]
  exact quiet_quote (head_flatMap ht cs)

theorem bareKeys_string {t : String} (ht : '"' ∉ t.toList) (hcs : Calm cs) :
    bareKeys (quote t ++ cs) = quote t ++ bareKeys cs := by
  have hinner := quote_not_mem_flatMap ht
  have hopening : Quiet (t.toList.flatMap escape ++ '"' :: cs) :=
    quiet_append hinner (quiet_quote hcs.noColon)
  rw [quote_eq, List.cons_append, List.append_assoc, List.singleton_append, bareKeys_quote hopening,
    bareKeys_append hinner, bareKeys_quote hcs.quiet]
  simp

theorem bareKey_eq {k : String} (hk : k ≠ "") : bareKey k = k.toList.flatMap escape := by
  rw [bareKey, if_neg hk, quote_eq, List.tail_cons, List.dropLast_concat]

theorem bareKeys_keyed {k : String} (hk : '"' ∉ k.toList) (hcs : Quiet cs) :
    bareKeys (quote k ++ ':' :: cs) = bareKey k ++ ':' :: bareKeys cs := by
  by_cases hempty : k = ""
  · subst hempty
    change bareKeys ('"' :: '"' :: ':' :: cs) = '"' :: '"' :: ':' :: bareKeys cs
    rw [bareKeys_twoQuotes, bareKeys_quote (quiet_cons (by simp) hcs), bareKeys_cons (by simp)]
  · rw [bareKey_eq hempty, quote_eq, List.cons_append, List.append_assoc, List.singleton_append,
      bareKeys_key (flatMap_ne_nil hempty) (quote_not_mem_flatMap hk)]

end Strings

section Numbers
open Decimal

theorem quote_not_mem_digits (n : Nat) : '"' ∉ Nat.toDigits 10 n := by
  intro hmem
  have hdigit := Nat.isDigit_of_mem_toDigits (by omega) (by omega) hmem
  simp [Char.isDigit] at hdigit

theorem quote_not_mem_integer (n : Int) : '"' ∉ (toString n).toList := by
  rw [Int.toString_eq_repr]
  cases n with
  | ofNat n => simp [Int.repr, quote_not_mem_digits]
  | negSucc n => simp [Int.repr, quote_not_mem_digits]

theorem quote_not_mem_positional (d : Scaled) : '"' ∉ d.positional := by
  have hdigits : '"' ∉ digitsOf d.coefficient := quote_not_mem_digits _
  have htake : ∀ n, '"' ∉ (digitsOf d.coefficient).take n := fun n h => hdigits (List.mem_of_mem_take h)
  have hdrop : ∀ n, '"' ∉ (digitsOf d.coefficient).drop n := fun n h => hdigits (List.mem_of_mem_drop h)
  unfold Scaled.positional
  simp only
  split
  · simp [hdigits]
  · split
    · simp [htake, hdrop]
    · simp [hdigits]

theorem quote_not_mem_scientific (d : Scaled) : '"' ∉ d.scientific := by
  have hdigits : ∀ n, '"' ∉ digitsOf n := quote_not_mem_digits
  have htake : '"' ∉ (digitsOf d.coefficient).take 1 := fun h => hdigits _ (List.mem_of_mem_take h)
  have htail : '"' ∉ (digitsOf d.coefficient).tail := fun h => hdigits _ (List.mem_of_mem_tail h)
  unfold Scaled.scientific
  simp only
  split <;> split <;> simp [hdigits, htake, htail]

theorem quote_not_mem_real (x : Float) : '"' ∉ ((jsonText x).getD "null").toList := by
  unfold jsonText
  split
  · simp only [Option.getD_some, String.toList_ofList]
    have hsigned : ∀ ds, '"' ∉ ds → ∀ b : Bool, '"' ∉ (if b = true then '-' :: ds else ds) := by
      intro ds hds b
      split <;> simp [hds]
    apply hsigned
    split
    · simp
    · split
      · split
        · exact quote_not_mem_positional _
        · simp [quote_not_mem_positional]
      · exact quote_not_mem_scientific _
  · simp

end Numbers

section Layout

theorem quote_not_mem_indent (level : Nat) : '"' ∉ indent level := by
  simp [indent]

mutual

theorem write_eq (level : Nat) (j : Json) : write level j = writeWith quote level j := by
  cases j with
  | array items =>
    cases items with
    | nil => simp [write, writeWith]
    | cons x xs => simp [write, writeWith, write_eq (level + 1) x, writeItems_eq (level + 1) xs]
  | object entries =>
    cases entries with
    | nil => simp [write, writeWith]
    | cons e es =>
      obtain ⟨k, v⟩ := e
      simp [write, writeWith, write_eq (level + 1) v, writeEntries_eq (level + 1) es]
  | _ => simp [write, writeWith]

theorem writeItems_eq (level : Nat) (xs : List Json) :
    writeItems level xs = writeItemsWith quote level xs := by
  cases xs with
  | nil => simp [writeItems, writeItemsWith]
  | cons x xs => simp [writeItems, writeItemsWith, write_eq level x, writeItems_eq level xs]

theorem writeEntries_eq (level : Nat) (es : List (String × Json)) :
    writeEntries level es = writeEntriesWith quote level es := by
  cases es with
  | nil => simp [writeEntries, writeEntriesWith]
  | cons e es =>
    obtain ⟨k, v⟩ := e
    simp [writeEntries, writeEntriesWith, write_eq level v, writeEntries_eq level es]

end

/-- A string that has no quote in it and no colon in front. -/
def Harmless (t : String) : Prop :=
  '"' ∉ t.toList ∧ t.toList.head? ≠ some ':'

variable {level : Nat}

theorem quiet_line (hc : c ≠ '"') (h : Quiet cs) : Quiet (c :: '\n' :: (indent level ++ cs)) :=
  quiet_cons hc (quiet_cons (by simp) (quiet_append (quote_not_mem_indent level) h))

theorem calm_closing (hc : c ≠ '"') (h : Quiet cs) : Calm ('\n' :: (indent level ++ c :: cs)) :=
  calm_cons (by simp) (by simp) (quiet_append (quote_not_mem_indent level) (quiet_cons hc h))

theorem bareKeys_line (hc : c ≠ '"') (cs : List Char) :
    bareKeys (c :: '\n' :: (indent level ++ cs)) = c :: '\n' :: (indent level ++ bareKeys cs) := by
  rw [bareKeys_cons hc, bareKeys_cons (by simp), bareKeys_append (quote_not_mem_indent level)]

theorem bareKeys_closing (hc : c ≠ '"') (cs : List Char) :
    bareKeys ('\n' :: (indent level ++ c :: cs)) = '\n' :: (indent level ++ c :: bareKeys cs) := by
  rw [bareKeys_cons (by simp), bareKeys_append (quote_not_mem_indent level), bareKeys_cons hc]

mutual

/-- The first quote of a written value, if there is one, opens its first string. -/
theorem quiet_write (level : Nat) (j : Json) {rest : List Char} (hj : ∀ t ∈ j.strings, Harmless t)
    (hrest : Quiet rest) : Quiet (write level j ++ rest) := by
  cases j with
  | null => exact quiet_append (by simp [write]) hrest
  | bool b => exact quiet_append (by cases b <;> simp [write]) hrest
  | integer n =>
    rw [write]
    exact quiet_append (quote_not_mem_integer n) hrest
  | real x =>
    rw [write]
    exact quiet_append (quote_not_mem_real x) hrest
  | text t =>
    have ht : Harmless t := hj t (by simp [strings])
    rw [write]
    exact quiet_string ht.2 rest
  | array items =>
    cases items with
    | nil => exact quiet_append (by simp [write]) hrest
    | cons x xs =>
      simp only [strings, stringsOfItems, List.mem_append] at hj
      simp only [write, List.cons_append, List.append_assoc, List.nil_append]
      have hclosing : Calm ('\n' :: (indent level ++ ']' :: rest)) := calm_closing (by simp) hrest
      have hitems := quiet_items (level + 1) xs (fun t ht => hj t (.inr ht)) hclosing.quiet
      exact quiet_line (by simp) (quiet_write (level + 1) x (fun t ht => hj t (.inl ht)) hitems)
  | object entries =>
    cases entries with
    | nil => exact quiet_append (by simp [write]) hrest
    | cons e es =>
      obtain ⟨k, v⟩ := e
      have hk : Harmless k := hj k (by simp [strings, stringsOfEntries])
      simp only [write, List.cons_append, List.append_assoc]
      exact quiet_line (by simp) (quiet_string hk.2 _)

theorem quiet_items (level : Nat) (xs : List Json) {rest : List Char}
    (hxs : ∀ t ∈ stringsOfItems xs, Harmless t)
    (hrest : Quiet rest) : Quiet (writeItems level xs ++ rest) := by
  cases xs with
  | nil => simpa [writeItems] using hrest
  | cons x xs =>
    simp only [stringsOfItems, List.mem_append] at hxs
    simp only [writeItems, List.cons_append, List.append_assoc]
    have hitems := quiet_items level xs (fun t ht => hxs t (.inr ht)) hrest
    exact quiet_line (by simp) (quiet_write level x (fun t ht => hxs t (.inl ht)) hitems)

end

theorem calm_items (level : Nat) {xs : List Json} (hxs : ∀ t ∈ stringsOfItems xs, Harmless t)
    (hrest : Calm rest) :
    Calm (writeItems level xs ++ rest) := by
  refine ⟨?_, quiet_items level xs hxs hrest.quiet⟩
  cases xs with
  | nil => simpa [writeItems] using hrest.noColon
  | cons x xs => simp [writeItems]

theorem calm_entries (level : Nat) {es : List (String × Json)} (hes : ∀ t ∈ stringsOfEntries es, Harmless t)
    (hrest : Calm rest) : Calm (writeEntries level es ++ rest) := by
  cases es with
  | nil => simpa [writeEntries] using hrest
  | cons e es =>
    obtain ⟨k, v⟩ := e
    have hk : Harmless k := hes k (by simp [stringsOfEntries])
    simp only [writeEntries, List.cons_append, List.append_assoc]
    exact ⟨by simp, quiet_line (by simp) (quiet_string hk.2 _)⟩

mutual

/-- Dropping quotes goes through a written value, changes its keys and nothing else, and goes on behind it. -/
theorem bareKeys_write (level : Nat) (j : Json) {rest : List Char} (hj : ∀ t ∈ j.strings, Harmless t)
    (hrest : Calm rest) : bareKeys (write level j ++ rest) = writeWith bareKey level j ++ bareKeys rest := by
  cases j with
  | null =>
    rw [write, writeWith]
    exact bareKeys_append (by simp) rest
  | bool b =>
    rw [write, writeWith]
    exact bareKeys_append (by cases b <;> simp) rest
  | integer n =>
    rw [write, writeWith]
    exact bareKeys_append (quote_not_mem_integer n) rest
  | real x =>
    rw [write, writeWith]
    exact bareKeys_append (quote_not_mem_real x) rest
  | text t =>
    have ht : Harmless t := hj t (by simp [strings])
    rw [write, writeWith]
    exact bareKeys_string ht.1 hrest
  | array items =>
    cases items with
    | nil =>
      rw [write, writeWith]
      exact bareKeys_append (by simp) rest
    | cons x xs =>
      simp only [strings, stringsOfItems, List.mem_append] at hj
      have hx : ∀ t ∈ x.strings, Harmless t := fun t ht => hj t (.inl ht)
      have hxs : ∀ t ∈ stringsOfItems xs, Harmless t := fun t ht => hj t (.inr ht)
      have hclosing : Calm ('\n' :: (indent level ++ ']' :: rest)) := calm_closing (by simp) hrest.quiet
      simp only [write, writeWith, List.cons_append, List.append_assoc, List.nil_append]
      rw [bareKeys_line (by simp), bareKeys_write (level + 1) x hx (calm_items (level + 1) hxs hclosing),
        bareKeys_items (level + 1) xs hxs hclosing, bareKeys_closing (by simp)]
  | object entries =>
    cases entries with
    | nil =>
      rw [write, writeWith]
      exact bareKeys_append (by simp) rest
    | cons e es =>
      obtain ⟨k, v⟩ := e
      simp only [strings, stringsOfEntries, List.mem_cons, List.mem_append] at hj
      have hk : Harmless k := hj k (.inl rfl)
      have hv : ∀ t ∈ v.strings, Harmless t := fun t ht => hj t (.inr (.inl ht))
      have hes : ∀ t ∈ stringsOfEntries es, Harmless t := fun t ht => hj t (.inr (.inr ht))
      have hclosing : Calm ('\n' :: (indent level ++ '}' :: rest)) := calm_closing (by simp) hrest.quiet
      have hvalue := calm_entries (level + 1) hes hclosing
      simp only [write, writeWith, List.cons_append, List.append_assoc, List.nil_append]
      rw [bareKeys_line (by simp),
        bareKeys_keyed hk.1 (quiet_cons (by simp) (quiet_write _ v hv hvalue.quiet)),
        bareKeys_cons (by simp), bareKeys_write (level + 1) v hv hvalue,
        bareKeys_entries (level + 1) es hes hclosing, bareKeys_closing (by simp)]

theorem bareKeys_items (level : Nat) (xs : List Json) {rest : List Char}
    (hxs : ∀ t ∈ stringsOfItems xs, Harmless t) (hrest : Calm rest) :
    bareKeys (writeItems level xs ++ rest) = writeItemsWith bareKey level xs ++ bareKeys rest := by
  cases xs with
  | nil => simp [writeItems, writeItemsWith]
  | cons x xs =>
    simp only [stringsOfItems, List.mem_append] at hxs
    have hx : ∀ t ∈ x.strings, Harmless t := fun t ht => hxs t (.inl ht)
    have hxs : ∀ t ∈ stringsOfItems xs, Harmless t := fun t ht => hxs t (.inr ht)
    simp only [writeItems, writeItemsWith, List.cons_append, List.append_assoc]
    rw [bareKeys_line (by simp), bareKeys_write level x hx (calm_items level hxs hrest),
      bareKeys_items level xs hxs hrest]

theorem bareKeys_entries (level : Nat) (es : List (String × Json)) {rest : List Char}
    (hes : ∀ t ∈ stringsOfEntries es, Harmless t) (hrest : Calm rest) :
    bareKeys (writeEntries level es ++ rest) = writeEntriesWith bareKey level es ++ bareKeys rest := by
  cases es with
  | nil => simp [writeEntries, writeEntriesWith]
  | cons e es =>
    obtain ⟨k, v⟩ := e
    simp only [stringsOfEntries, List.mem_cons, List.mem_append] at hes
    have hk : Harmless k := hes k (.inl rfl)
    have hv : ∀ t ∈ v.strings, Harmless t := fun t ht => hes t (.inr (.inl ht))
    have hes : ∀ t ∈ stringsOfEntries es, Harmless t := fun t ht => hes t (.inr (.inr ht))
    have hvalue := calm_entries level hes hrest
    simp only [writeEntries, writeEntriesWith, List.cons_append, List.append_assoc]
    rw [bareKeys_line (by simp), bareKeys_keyed hk.1 (quiet_cons (by simp) (quiet_write _ v hv hvalue.quiet)),
      bareKeys_cons (by simp), bareKeys_write level v hv hvalue, bareKeys_entries level es hes hrest]

end

end Layout

/-- An array or object whose strings hold no quotes and begin with no colons is shown as its JSON with exactly
the two quotes around each key that is not empty left out. -/
theorem renderComposite_bares_keys (s : Store) (v : Value) (h : ∀ t ∈ (s.toJson v).strings, Harmless t) :
    (s.toJson v).pretty = String.ofList (writeWith quote 0 (s.toJson v)) ∧
    s.renderComposite v = String.ofList (writeWith bareKey 0 (s.toJson v)) ∧
    ∀ k, (k = "" → bareKey k = quote k) ∧ (k ≠ "" → quote k = '"' :: (bareKey k ++ ['"'])) := by
  refine ⟨?_, ?_, ?_⟩
  · rw [Json.pretty, write_eq]
  · have hend : Calm [] := ⟨by simp, fun rest => by simp⟩
    have hbare := bareKeys_write 0 (s.toJson v) h hend
    rw [List.append_nil, bareKeys_nil, List.append_nil] at hbare
    rw [Store.renderComposite, hbare]
  · intro k
    refine ⟨fun hk => if_pos hk, fun hk => ?_⟩
    rw [bareKey_eq hk, quote_eq]

/-- An object with an empty key, a key that ends in a colon, an empty string and strings with colons in
them. -/
def colons : Store :=
  { Store.empty with
    arrays := #[#[.text "x:", .text "\\", .text "y: z"]]
    objects := #[⟨[("", .text "a"), ("b:", .text ""), ("c", .array 0)], none⟩] }

theorem renderComposite_bares_keys_colons :
    (∀ t ∈ (colons.toJson (.object 0)).strings, Harmless t) ∧
    colons.renderComposite (.object 0) =
      "\x7b\n  \"\": \"a\",\n  b:: \"\",\n  c: [\n    \"x:\",\n    \"\\\\\",\n    \"y: z\"\n  ]\n\x7d" := by
  have hstrings : (colons.toJson (.object 0)).strings = ["", "a", "b:", "", "c", "x:", "\\", "y: z"] := by rfl
  have hharmless : ∀ t ∈ (colons.toJson (.object 0)).strings, Harmless t := by
    rw [hstrings]
    simp [Harmless]
  refine ⟨hharmless, ?_⟩
  rw [(renderComposite_bares_keys colons (.object 0) hharmless).2.1]
  rfl

end Scriptlet.Proofs.BareKeys
