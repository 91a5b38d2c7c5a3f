import Scriptlet.Store.Display

namespace Scriptlet.Store

def pairs (s : Store) : List (Cell × Cell) :=
  let arrays := (List.range s.arrays.size).map Cell.array
  let objects := (List.range s.objects.size).map Cell.object
  arrays.flatMap (fun c => arrays.map (c, ·)) ++ objects.flatMap (fun c => objects.map (c, ·))

/-- How many pairs are not being compared yet. -/
def unopened (s : Store) (open_ : List (Cell × Cell)) : Nat :=
  (s.pairs.filter (· ∉ open_)).length

theorem mem_pairs_array {s : Store} {a b : Nat} {x y : Value}
    (h : (x, y) ∈ (s.elements a).toList.zip (s.elements b).toList) :
    (.array a, .array b) ∈ s.pairs := by
  have ha := array_lt_of_mem (List.of_mem_zip h).1
  have hb := array_lt_of_mem (List.of_mem_zip h).2
  simp [pairs, ha, hb]

theorem mem_pairs_object {s : Store} {a b : Nat} {e f : String × Value}
    (h : (e, f) ∈ (s.objectAt a).entries.zip (s.objectAt b).entries) :
    (.object a, .object b) ∈ s.pairs := by
  have ha := object_lt_of_mem (List.of_mem_zip h).1
  have hb := object_lt_of_mem (List.of_mem_zip h).2
  simp [pairs, ha, hb]

theorem unopened_lt {s : Store} {open_ : List (Cell × Cell)} {p : Cell × Cell} (hp : p ∈ s.pairs)
    (hnew : p ∉ open_) : s.unopened (p :: open_) < s.unopened open_ := by
  have hsplit : s.pairs.filter (· ∉ p :: open_) = (s.pairs.filter (· ∉ open_)).filter (· ≠ p) := by
    simp [List.filter_filter]
  unfold unopened
  rw [hsplit, List.length_filter_lt_length_iff_exists]
  exact ⟨p, by simp [hp, hnew], by simp⟩

/-- Whether two values are equal, given pairs that are being compared and count as equal. Each
comparison inside of another opens one more pair, so there are ever fewer that it can open. -/
def sameBelow (s : Store) (open_ : List (Cell × Cell)) : Value → Value → Bool
  | .null, .null => true
  | .number x, .number y => x == y
  | .text a, .text b => a = b
  | .boolean a, .boolean b => a = b
  | .structType a, .structType b => a = b
  | .native a, .native b => a = b
  | .function a, .function b => a = b
  | .array a, .array b =>
    if a = b ∨ (.array a, .array b) ∈ open_ then true
    else
      let xs := (s.elements a).toList
      let ys := (s.elements b).toList
      xs.length = ys.length &&
        (xs.zip ys).attach.all fun ⟨(x, y), _⟩ => s.sameBelow ((.array a, .array b) :: open_) x y
  | .object a, .object b =>
    if a = b ∨ (.object a, .object b) ∈ open_ then true
    else
      let x := s.objectAt a
      let y := s.objectAt b
      x.tag = y.tag && x.entries.length = y.entries.length &&
        (x.entries.zip y.entries).attach.all fun ⟨((k, v), (l, w)), _⟩ =>
          k = l && s.sameBelow ((.object a, .object b) :: open_) v w
  | _, _ => false
termination_by s.unopened open_
decreasing_by
  · rename_i hopen hmem
    exact unopened_lt (mem_pairs_array hmem) (not_or.mp hopen).2
  · rename_i hopen hmem
    exact unopened_lt (mem_pairs_object hmem) (not_or.mp hopen).2

/-- Whether two values are equal in structure: arrays and objects are equal when their parts are,
however they share them. -/
def same (s : Store) (a b : Value) : Bool :=
  s.sameBelow [] a b

end Scriptlet.Store
