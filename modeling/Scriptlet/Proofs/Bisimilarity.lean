import Mathlib.Data.List.Forall2
import Scriptlet.Store.Equality

namespace Scriptlet

/-- The value that refers to an array or object. -/
def Store.Cell.value : Store.Cell → Value
  | .array ref => .array ref
  | .object ref => .object ref

/-- Two values are of one kind and agree on the outside, and their parts are related by `R`. One and the same
array, object or callable agrees with itself, whatever its parts are. -/
inductive Store.Matches (s : Store) (R : Value → Value → Prop) : Value → Value → Prop where
  | null : s.Matches R .null .null
  | number {x y : Float} (h : (x == y) = true) : s.Matches R (.number x) (.number y)
  | text (t : String) : s.Matches R (.text t) (.text t)
  | boolean (b : Bool) : s.Matches R (.boolean b) (.boolean b)
  | structType (ref : Nat) : s.Matches R (.structType ref) (.structType ref)
  | native (ref : Nat) : s.Matches R (.native ref) (.native ref)
  | function (ref : Nat) : s.Matches R (.function ref) (.function ref)
  | sameArray (ref : Nat) : s.Matches R (.array ref) (.array ref)
  | sameObject (ref : Nat) : s.Matches R (.object ref) (.object ref)
  | array {a b : Nat} (helements : List.Forall₂ R (s.elements a).toList (s.elements b).toList) :
      s.Matches R (.array a) (.array b)
  | object {a b : Nat} (htag : (s.objectAt a).tag = (s.objectAt b).tag)
      (hentries : List.Forall₂ (fun e f => e.1 = f.1 ∧ R e.2 f.2) (s.objectAt a).entries
        (s.objectAt b).entries) :
      s.Matches R (.object a) (.object b)

/-- A relation each pair of which it bears out itself. -/
def Store.IsBisimulation (s : Store) (R : Value → Value → Prop) : Prop :=
  ∀ a b, R a b → s.Matches R a b

/-- Some bisimulation relates two values. -/
def Store.Bisimilar (s : Store) (a b : Value) : Prop :=
  ∃ R, s.IsBisimulation R ∧ R a b

/-- Two values cannot be told apart by looking at most `n` levels deep. -/
def Store.AgreeTo (s : Store) : Nat → Value → Value → Prop
  | 0, _, _ => True
  | n + 1, a, b => s.Matches (s.AgreeTo n) a b

namespace Proofs.Bisimilarity
open Store

variable {s : Store} {a b : Value} {open_ : List (Cell × Cell)}

section Levels

/-- Two values match whatever the relation is, or they are two arrays or two objects that match by their
parts. -/
theorem matches_cases {R : Value → Value → Prop} (h : s.Matches R a b) : (∀ S, s.Matches S a b) ∨
    (∃ x y, x ≠ y ∧ a = .array x ∧ b = .array y ∧
      List.Forall₂ R (s.elements x).toList (s.elements y).toList) ∨
    ∃ x y, x ≠ y ∧ a = .object x ∧ b = .object y ∧ (s.objectAt x).tag = (s.objectAt y).tag ∧
      List.Forall₂ (fun e f => e.1 = f.1 ∧ R e.2 f.2) (s.objectAt x).entries (s.objectAt y).entries := by
  cases h with
  | null => exact .inl fun S => .null
  | number h => exact .inl fun S => .number h
  | text t => exact .inl fun S => .text t
  | boolean b => exact .inl fun S => .boolean b
  | structType ref => exact .inl fun S => .structType ref
  | native ref => exact .inl fun S => .native ref
  | function ref => exact .inl fun S => .function ref
  | sameArray ref => exact .inl fun S => .sameArray ref
  | sameObject ref => exact .inl fun S => .sameObject ref
  | @array x y helements =>
    by_cases hxy : x = y
    · subst hxy
      exact .inl fun S => .sameArray x
    · exact .inr (.inl ⟨x, y, hxy, rfl, rfl, helements⟩)
  | @object x y htag hentries =>
    by_cases hxy : x = y
    · subst hxy
      exact .inl fun S => .sameObject x
    · exact .inr (.inr ⟨x, y, hxy, rfl, rfl, htag, hentries⟩)

theorem matches_imp {R S : Value → Value → Prop} (himp : ∀ x y, R x y → S x y) (h : s.Matches R a b) :
    s.Matches S a b := by
  obtain hall | ⟨x, y, _, rfl, rfl, helements⟩ | ⟨x, y, _, rfl, rfl, htag, hentries⟩ := matches_cases h
  · exact hall S
  · exact .array (helements.imp himp)
  · exact .object htag (hentries.imp fun e f hef => ⟨hef.1, himp _ _ hef.2⟩)

theorem agreeTo_of_succ {n : Nat} (h : s.AgreeTo (n + 1) a b) : s.AgreeTo n a b := by
  induction n generalizing a b with
  | zero => trivial
  | succ n ih => exact matches_imp (fun x y hxy => ih hxy) h

/-- Two different arrays that agree to one more level have elements that agree. -/
theorem elements_agreeTo {n x y : Nat} (hxy : x ≠ y) (h : s.AgreeTo (n + 1) (.array x) (.array y)) :
    List.Forall₂ (s.AgreeTo n) (s.elements x).toList (s.elements y).toList := by
  cases h with
  | sameArray => exact absurd rfl hxy
  | array helements => exact helements

theorem entries_agreeTo {n x y : Nat} (hxy : x ≠ y) (h : s.AgreeTo (n + 1) (.object x) (.object y)) :
    List.Forall₂ (fun e f => e.1 = f.1 ∧ s.AgreeTo n e.2 f.2) (s.objectAt x).entries
      (s.objectAt y).entries := by
  cases h with
  | sameObject => exact absurd rfl hxy
  | object _ hentries => exact hentries

/-- Agreement to every level is itself a bisimulation, because the parts of a cell are the same at each
level. -/
theorem bisimilar_of_agreeTo (h : ∀ n, s.AgreeTo n a b) : s.Bisimilar a b := by
  refine ⟨fun v w => ∀ n, s.AgreeTo n v w, ?_, h⟩
  intro v w hvw
  obtain hall | ⟨x, y, hxy, rfl, rfl, helements⟩ | ⟨x, y, hxy, rfl, rfl, htag, hentries⟩ :=
    matches_cases (hvw 1)
  · exact hall _
  · refine .array (List.forall₂_iff_zip.mpr ⟨helements.length_eq, ?_⟩)
    intro v w hmem n
    exact (List.forall₂_iff_zip.mp (elements_agreeTo hxy (hvw (n + 1)))).2 hmem
  · refine .object htag (List.forall₂_iff_zip.mpr ⟨hentries.length_eq, ?_⟩)
    intro e f hmem
    refine ⟨((List.forall₂_iff_zip.mp hentries).2 hmem).1, ?_⟩
    intro n
    exact ((List.forall₂_iff_zip.mp (entries_agreeTo hxy (hvw (n + 1)))).2 hmem).2

end Levels

section Comparisons

theorem sameBelow_array (x y : Nat) : s.sameBelow open_ (.array x) (.array y) = true ↔
    (x = y ∨ (.array x, .array y) ∈ open_) ∨
      List.Forall₂ (fun v w => s.sameBelow ((.array x, .array y) :: open_) v w = true)
        (s.elements x).toList (s.elements y).toList := by
  rw [sameBelow]
  split
  · simp_all
  · simp_all [List.forall₂_iff_zip]

theorem sameBelow_object (x y : Nat) : s.sameBelow open_ (.object x) (.object y) = true ↔
    (x = y ∨ (.object x, .object y) ∈ open_) ∨
      (s.objectAt x).tag = (s.objectAt y).tag ∧
        List.Forall₂ (fun e f => e.1 = f.1 ∧ s.sameBelow ((.object x, .object y) :: open_) e.2 f.2 = true)
          (s.objectAt x).entries (s.objectAt y).entries := by
  rw [sameBelow]
  split
  · simp_all
  · simp_all [List.forall₂_iff_zip, and_assoc]

/-- A comparison succeeds because its pair is taken for granted, or because the values match and the
comparisons of their parts, which take it for granted as well, succeed. -/
theorem matches_of_sameBelow (h : s.sameBelow open_ a b = true) :
    (∃ p ∈ open_, a = p.1.value ∧ b = p.2.value) ∨
      s.Matches (fun v w => ∃ p : Cell × Cell, a = p.1.value ∧ b = p.2.value ∧
        s.sameBelow (p :: open_) v w = true) a b := by
  fun_cases s.sameBelow open_ a b with
  | case1 => exact .inr .null
  | case2 x y =>
    rw [sameBelow] at h
    exact .inr (.number h)
  | case3 t u =>
    obtain rfl : t = u := by simpa [sameBelow] using h
    exact .inr (.text t)
  | case4 t u =>
    obtain rfl : t = u := by simpa [sameBelow] using h
    exact .inr (.boolean t)
  | case5 x y =>
    obtain rfl : x = y := by simpa [sameBelow] using h
    exact .inr (.structType x)
  | case6 x y =>
    obtain rfl : x = y := by simpa [sameBelow] using h
    exact .inr (.native x)
  | case7 x y =>
    obtain rfl : x = y := by simpa [sameBelow] using h
    exact .inr (.function x)
  | case8 x y | case9 x y =>
    obtain (rfl | hmem) | helements := (sameBelow_array x y).mp h
    · exact .inr (.sameArray x)
    · exact .inl ⟨_, hmem, rfl, rfl⟩
    · exact .inr (.array (helements.imp fun v w hvw => ⟨_, rfl, rfl, hvw⟩))
  | case10 x y | case11 x y =>
    obtain (rfl | hmem) | ⟨htag, hentries⟩ := (sameBelow_object x y).mp h
    · exact .inr (.sameObject x)
    · exact .inl ⟨_, hmem, rfl, rfl⟩
    · exact .inr (.object htag (hentries.imp fun e f hef => ⟨hef.1, _, rfl, rfl, hef.2⟩))
  | case12 => simp_all [sameBelow]

/-- A comparison that succeeds is right as far as the pairs are that it takes for granted. The pair under
comparison is one of those for its parts, but only to the level before, which is what the induction gives. -/
theorem agreeTo_of_sameBelow {n : Nat} (hopen : ∀ p ∈ open_, s.AgreeTo n p.1.value p.2.value)
    (h : s.sameBelow open_ a b = true) : s.AgreeTo n a b := by
  induction n generalizing open_ a b with
  | zero => trivial
  | succ n ih =>
    have hbefore : ∀ p ∈ open_, s.AgreeTo n p.1.value p.2.value := fun p hp => agreeTo_of_succ (hopen p hp)
    have hself : s.AgreeTo n a b := ih hbefore h
    rcases matches_of_sameBelow h with ⟨p, hp, rfl, rfl⟩ | hmatch
    · exact hopen p hp
    · apply matches_imp _ hmatch
      rintro v w ⟨p, ha, hb, hvw⟩
      apply ih _ hvw
      intro q hq
      rcases List.mem_cons.mp hq with rfl | hold
      · rw [← ha, ← hb]
        exact hself
      · exact hbefore q hold

/-- Values in a bisimulation are found equal, whatever is taken for granted: the comparison follows the
relation down. -/
theorem sameBelow_of_isBisimulation {R : Value → Value → Prop} (hR : s.IsBisimulation R) (h : R a b) :
    s.sameBelow open_ a b = true := by
  induction open_, a, b using sameBelow.induct s with
  | case1 => rw [sameBelow]
  | case2 open_ x y =>
    cases hR _ _ h with
    | number hxy => rw [sameBelow, hxy]
  | case3 | case4 | case5 | case6 | case7 =>
    cases hR _ _ h
    simp [sameBelow]
  | case8 open_ x y hopen => exact (sameBelow_array x y).mpr (.inl hopen)
  | case9 open_ x y hnew xs ys ih =>
    cases hR _ _ h with
    | sameArray => exact absurd (.inl rfl) hnew
    | array helements =>
      obtain ⟨hlength, hparts⟩ := List.forall₂_iff_zip.mp helements
      apply (sameBelow_array x y).mpr
      exact .inr (List.forall₂_iff_zip.mpr ⟨hlength, fun hmem => ih _ _ hmem (hparts hmem)⟩)
  | case10 open_ x y hopen => exact (sameBelow_object x y).mpr (.inl hopen)
  | case11 open_ x y hnew p q ih =>
    cases hR _ _ h with
    | sameObject => exact absurd (.inl rfl) hnew
    | object htag hentries =>
      obtain ⟨hlength, hparts⟩ := List.forall₂_iff_zip.mp hentries
      apply (sameBelow_object x y).mpr
      refine .inr ⟨htag, List.forall₂_iff_zip.mpr ⟨hlength, fun hmem => ?_⟩⟩
      exact ⟨(hparts hmem).1, ih _ _ _ _ hmem (hparts hmem).2⟩
  | case12 open_ v w =>
    cases hR _ _ h
    all_goals simp_all

end Comparisons

/-- Two values, however their parts are shared and wherever they lead back, are equal in structure if and only
if some bisimulation relates them. -/
theorem same_iff_bisimilar (s : Store) (a b : Value) : s.same a b = true ↔ s.Bisimilar a b := by
  constructor
  · intro h
    exact bisimilar_of_agreeTo fun n => agreeTo_of_sameBelow (by simp) h
  · rintro ⟨R, hR, hab⟩
    exact sameBelow_of_isBisimulation hR hab

end Proofs.Bisimilarity

end Scriptlet
