import Scriptlet.Proofs.GrammarStatements

namespace Scriptlet

mutual

/-- The levels on the longest path from the root of an expression to a leaf. -/
def Expr.height : Expr → Nat
  | .number _ | .text _ | .identifier _ => 1
  | .array es => 1 + Expr.heightOfList es
  | .object ps => 1 + Property.heightOfList ps
  | .assign _ value => 1 + value.height
  | .call callee arguments => 1 + max callee.height (Expr.heightOfList arguments)
  | .member object key _ none => 1 + max object.height key.height
  | .member object key _ (some value) => 1 + max (max object.height key.height) value.height
  | .boolean left _ right => 1 + max left.height right.height
  | .binary left _ right => 1 + max left.height right.height
  | .logical left _ _ right => 1 + max left.height right.height
  | .not operand => 1 + operand.height

/-- The height of the highest of some expressions. -/
def Expr.heightOfList : List Expr → Nat
  | [] => 0
  | e :: es => max e.height (Expr.heightOfList es)

/-- The height of the value of an entry; a bare key has none. -/
def Property.height : Property → Nat
  | .shorthand _ => 0
  | .valued _ value => value.height

/-- The height of the highest of some entries. -/
def Property.heightOfList : List Property → Nat
  | [] => 0
  | p :: ps => max p.height (Property.heightOfList ps)

end

mutual

/-- The height of a statement; a block is one level above what stands in it. -/
def Stmt.height : Stmt → Nat
  | .structDecl .. => 0
  | .fnDecl _ _ body => 1 + Stmt.heightOfList body
  | .ret value => value.height
  | .ifThen test body => max test.height (1 + Stmt.heightOfList body)
  | .whileDo test body => max test.height (1 + Stmt.heightOfList body)
  | .varDecl _ _ value => value.height
  | .expr value => value.height

/-- The height of the highest of some statements. -/
def Stmt.heightOfList : List Stmt → Nat
  | [] => 0
  | s :: ss => max s.height (Stmt.heightOfList ss)

end

/-- The height of a program. -/
def Program.height (p : Program) : Nat :=
  Stmt.heightOfList p.body

theorem Stmt.heightOfList_append (ss ts : List Stmt) :
    Stmt.heightOfList (ss ++ ts) = max (Stmt.heightOfList ss) (Stmt.heightOfList ts) := by
  induction ss with
  | nil => simp [Stmt.heightOfList]
  | cons s ss ih => simp only [List.cons_append, Stmt.heightOfList, ih, Nat.max_assoc]

end Scriptlet

namespace Scriptlet.Proofs.Height
open Scriptlet.Program Scriptlet.Program.Parser Reading GrammarSound GrammarStatements

-- All proofs below unfold the height. Its equations are made here, once, and not in each of the proofs at the
-- same time.
attribute [local simp] Expr.height

/-- How high an expression may grow that has `r` levels left. -/
def cap (r : Nat) : Nat :=
  r * (2 * r - 1)

/-- A level of parentheses adds four folds of the levels below it and one operator. -/
theorem cap_succ (r : Nat) : cap (r + 1) = cap r + 4 * r + 1 := by
  cases r with
  | zero => rfl
  | succ k =>
    have hnew : 2 * (k + 1 + 1) - 1 = 2 * k + 3 := by omega
    have hold : 2 * (k + 1) - 1 = 2 * k + 1 := by omega
    unfold cap
    rw [hnew, hold]
    simp only [Nat.add_mul, Nat.mul_add]
    omega

theorem cap_mono {r s : Nat} (h : r ≤ s) : cap r ≤ cap s :=
  Nat.mul_le_mul h (Nat.sub_le_sub_right (Nat.mul_le_mul_left 2 h) 1)

/-- How high a tree may grow in front of a layer with `k` folds below it. Every fold adds a level for
each one that is left, and none of them counts against the next fold. -/
def layer (k r : Nat) : Nat :=
  max 1 (cap r) + k * r

theorem layer_mono (k : Nat) {r s : Nat} (h : r ≤ s) : layer k r ≤ layer k s := by
  have hcap := cap_mono h
  have hmul := Nat.mul_le_mul_left k h
  unfold layer
  omega

theorem layer_succ (k r : Nat) : layer (k + 1) r = layer k r + r := by
  unfold layer
  rw [Nat.add_mul]
  omega

theorem cap_le_layer (k r : Nat) : cap r ≤ layer k r := by
  unfold layer
  omega

theorem one_le_layer (k r : Nat) : 1 ≤ layer k r := by
  unfold layer
  omega

theorem cap_lt_layer (k r : Nat) : cap r < layer (k + 1) r := by
  have hcap := cap_le_layer k r
  have hone := one_le_layer k r
  rw [layer_succ]
  rcases Nat.eq_zero_or_pos r with rfl | hr
  · exact hone
  · omega

variable {expr : Parser Expr} {e : Expr} {c c' : Cursor}

/-- What is left of the levels at a cursor. -/
def room (c : Cursor) : Nat :=
  maxNesting - c.depth

/-- A reader of full expressions takes a level and keeps to the cap. -/
def Capped (p : Parser Expr) : Prop :=
  ∀ c e c', Gives p c e c' → 0 < room c ∧ e.height ≤ cap (room c)

def Within (p : Parser Expr) (k : Nat) : Prop :=
  ∀ c e c', Gives p c e c' → e.height ≤ layer k (room c)

theorem room_past {w : List Token} (h : Past c w c') : room c' = room c := by
  rw [room, room, h.depth_eq]

theorem primary_within (hcap : Capped expr) : Within (primary expr) 0 := by
  intro c e c' h
  obtain ⟨t, d, ht, h⟩ := gives_primary.mp h
  rcases h with ⟨_, rfl, rfl⟩ | ⟨_, ⟨x, _, rfl⟩, rfl⟩ | ⟨_, rfl, rfl⟩ | ⟨_, d', u, he, _, _⟩
  · exact one_le_layer 0 _
  · exact one_le_layer 0 _
  · exact one_le_layer 0 _
  · have hle := (hcap _ _ _ he).2
    rw [room_past ht] at hle
    exact Nat.le_trans hle (cap_le_layer 0 _)

theorem room_deeper {w : List Token} (h : Past { c with depth := c.depth + 1 } w c')
    (hc : c.depth < maxNesting) : room c' + 1 = room c := by
  have hdepth : c'.depth = c.depth + 1 := h.depth_eq
  unfold room
  omega

/-- A member is one level above its object and its key, and one level is used up. -/
theorem memberStep_height {object : Expr} (hsound : Sound expr .expression) (hcap : Capped expr)
    (h : MemberStep expr object c e c') :
    room c' + 1 = room c ∧ e.height ≤ 1 + max object.height (layer 0 (room c')) := by
  cases h with
  | dot hc ht hk hkey =>
    obtain ⟨hkey, name, rfl⟩ := gives_dotMember.mp hkey
    obtain ⟨w, hw, _⟩ := primary_sound hsound _ _ _ hkey
    have hone := one_le_layer 0 (room c')
    refine ⟨room_deeper (ht.trans hw) hc, ?_⟩
    simp only [Expr.height]
    omega
  | index hc ht hk hkey hu huk =>
    obtain ⟨w, hw, _⟩ := hsound _ _ _ hkey
    have hle := (hcap _ _ _ hkey).2
    rw [← room_past hw, ← room_past hu] at hle
    have hlayer := cap_le_layer 0 (room c')
    refine ⟨room_deeper ((ht.trans hw).trans hu) hc, ?_⟩
    simp only [Expr.height]
    omega

theorem memberTail_height {object : Expr} (hsound : Sound expr .expression) (hcap : Capped expr)
    (n : Nat) {b : Nat} (hobject : object.height + room c ≤ b) (hb : layer 1 (room c) ≤ b)
    (h : Gives (memberTail expr n object) c e c') : e.height ≤ b := by
  induction n generalizing object c with
  | zero => exact (gives_failHere.mp h).elim
  | succ n ih =>
    rcases gives_memberTail_succ.mp h with ⟨more, d, hm, htail⟩ | ⟨_, _, rfl, rfl⟩
    · obtain ⟨hroom, hmore⟩ := memberStep_height hsound hcap hm
      have hlayer := layer_mono 0 (Nat.le_of_succ_le (Nat.le_of_eq hroom))
      have hmono := layer_mono 1 (Nat.le_of_succ_le (Nat.le_of_eq hroom))
      rw [layer_succ] at hb
      refine ih ?_ ?_ htail
      · omega
      · rw [layer_succ] at hmono ⊢
        omega
    · omega

/-- A write is one level above its value and no higher than the read it comes from. -/
theorem written_height {target value : Expr} (h : Written target value e) :
    e.height ≤ max target.height (1 + value.height) := by
  cases h with
  | assign name value =>
    simp only [Expr.height]
    omega
  | member object key value computed =>
    simp only [Expr.height]
    omega

theorem memberChain_within (hsound : Sound expr .expression) (hcap : Capped expr) :
    Within (memberChain expr) 1 := by
  intro c e c' h
  obtain ⟨first, d, object, d₁, hfirst, hmembers, h⟩ := gives_memberChain.mp h
  obtain ⟨w, hw, _⟩ := primary_sound hsound _ _ _ hfirst
  obtain ⟨d₂, htail, rfl⟩ := gives_leveled.mp hmembers
  have hprimary := primary_within hcap _ _ _ hfirst
  have hroom := room_past hw
  have hobject : object.height ≤ layer 1 (room c) := by
    refine memberTail_height hsound hcap levels ?_ (Nat.le_of_eq (by rw [hroom])) htail
    rw [layer_succ, hroom]
    omega
  rcases h with ⟨_, t, d₃, value, ht, hvalue, he⟩ | ⟨_, rfl, rfl⟩
  · obtain ⟨hpos, hle⟩ := hcap _ _ _ hvalue
    have hsame : room d₃ = room c := (room_past ht).trans hroom
    rw [hsame] at hpos hle
    have hwritten := written_height he
    have hlayer := cap_le_layer 0 (room c)
    rw [layer_succ] at hobject ⊢
    omega
  · exact hobject

theorem moreArguments_height (hsound : Sound expr .expression) (hcap : Capped expr) (n : Nat)
    {es : List Expr} (h : Gives (moreArguments expr n) c es c') :
    Expr.heightOfList es ≤ cap (room c) := by
  induction n generalizing es c with
  | zero =>
    obtain ⟨rfl, rfl⟩ := gives_pure.mp h
    exact Nat.zero_le _
  | succ n ih =>
    rcases gives_moreArguments_succ.mp h with ⟨t, d, first, d', others, ht, _, hfirst, hothers, rfl⟩ |
      ⟨_, rfl, rfl⟩
    · obtain ⟨w, hw, _⟩ := hsound _ _ _ hfirst
      have hhead := (hcap _ _ _ hfirst).2
      have htail := ih hothers
      rw [room_past hw, room_past ht] at htail
      rw [room_past ht] at hhead
      exact Nat.max_le.mpr ⟨hhead, htail⟩
    · exact Nat.zero_le _

theorem arguments_height (hsound : Sound expr .expression) (hcap : Capped expr) {es : List Expr}
    (h : Gives (arguments expr) c es c') :
    room c' = room c ∧ Expr.heightOfList es ≤ cap (room c) := by
  obtain ⟨t, d, u, d', ht, _, hu, _, h⟩ := gives_arguments.mp h
  rcases h with ⟨rfl, rfl⟩ | ⟨_, first, d'', others, hfirst, hothers, rfl⟩
  · exact ⟨(room_past hu).trans (room_past ht), Nat.zero_le _⟩
  · obtain ⟨v, hv, hd⟩ := hsound _ _ _ hfirst
    obtain ⟨w, hw, _⟩ := moreArguments_sound hsound _ hd hothers
    have hhead := (hcap _ _ _ hfirst).2
    have htail := moreArguments_height hsound hcap _ hothers
    rw [room_past hv, room_past ht] at htail
    rw [room_past ht] at hhead
    exact ⟨room_past (((ht.trans hv).trans hw).trans hu), Nat.max_le.mpr ⟨hhead, htail⟩⟩

theorem callTail_height {callee : Expr} (hsound : Sound expr .expression) (hcap : Capped expr)
    (n : Nat) {b : Nat} (hcallee : callee.height + room c ≤ b) (hb : layer 2 (room c) ≤ b)
    (h : Gives (callTail expr n callee) c e c') : e.height ≤ b := by
  induction n generalizing callee c with
  | zero => exact (gives_failHere.mp h).elim
  | succ n ih =>
    rcases gives_callTail_succ.mp h with ⟨hc, args, d, _, hargs, htail⟩ | ⟨_, rfl, rfl⟩
    · obtain ⟨hsame, hle⟩ := arguments_height hsound hcap hargs
      have hroom : room d + 1 = room c := by
        rw [hsame]
        exact room_deeper (.refl _) hc
      rw [← hsame] at hle
      have hlayer := cap_le_layer 1 (room d)
      have hmono := layer_mono 2 (Nat.le_of_succ_le (Nat.le_of_eq hroom))
      have hone := layer_mono 1 (Nat.le_of_succ_le (Nat.le_of_eq hroom))
      rw [layer_succ] at hb
      refine ih ?_ (Nat.le_trans hmono (by rw [layer_succ]; exact hb)) htail
      simp only [Expr.height]
      omega
    · omega

theorem callChain_within (hsound : Sound expr .expression) (hcap : Capped expr) :
    Within (callChain expr) 2 := by
  intro c e c' h
  obtain ⟨first, d, hfirst, hmore⟩ := gives_bind.mp h
  obtain ⟨w, hw, _⟩ := memberChain_sound hsound _ _ _ hfirst
  obtain ⟨d₁, htail, rfl⟩ := gives_leveled.mp hmore
  have hmember := memberChain_within hsound hcap _ _ _ hfirst
  have hroom := room_past hw
  refine callTail_height hsound hcap levels ?_ (Nat.le_of_eq (by rw [hroom])) htail
  rw [layer_succ, hroom]
  omega

/-- A fold that takes a level for every operator adds as many levels as are left. -/
theorem foldTail_height {accepted : BinaryOp → Bool} {operand : Parser Expr} {k n : Nat}
    {s : Grammar.Symbol Expr} {first : Expr} (hsound : Sound operand s) (hwithin : Within operand k)
    {b : Nat} (hfirst : first.height + room c ≤ b) (hb : layer (k + 1) (room c) ≤ b)
    (h : Gives (foldTail accepted operand n first) c e c') : e.height ≤ b := by
  induction n generalizing first c with
  | zero => exact (gives_failHere.mp h).elim
  | succ n ih =>
    rcases gives_foldTail_succ.mp h with ⟨op, t, d, right, d', _, hc, ht, hright, htail⟩ | ⟨_, rfl, rfl⟩
    · obtain ⟨w, hw, _⟩ := hsound _ _ _ hright
      have hle := hwithin _ _ _ hright
      have hroom := room_deeper (ht.trans hw) hc
      rw [← room_past hw] at hle
      have hlayer := layer_mono k (Nat.le_of_succ_le (Nat.le_of_eq hroom))
      have hmono := layer_mono (k + 1) (Nat.le_of_succ_le (Nat.le_of_eq hroom))
      refine ih ?_ (Nat.le_trans hmono hb) htail
      rw [layer_succ] at hb
      simp only [Expr.height]
      omega
    · omega

theorem leftFold_within {accepted : BinaryOp → Bool} {operand : Parser Expr} {k : Nat}
    {s : Grammar.Symbol Expr} (hsound : Sound operand s) (hwithin : Within operand k) :
    Within (leftFold accepted operand) (k + 1) := by
  intro c e c' h
  obtain ⟨first, d, hfirst, hmore⟩ := gives_bind.mp h
  obtain ⟨w, hw, _⟩ := hsound _ _ _ hfirst
  obtain ⟨d₁, htail, rfl⟩ := gives_leveled.mp hmore
  have hle := hwithin _ _ _ hfirst
  have hroom := room_past hw
  refine foldTail_height hsound hwithin ?_ (Nat.le_of_eq (by rw [hroom])) htail
  rw [layer_succ, hroom]
  omega

theorem additive_within (hsound : Sound expr .expression) (hcap : Capped expr) :
    Within (additive expr) 4 :=
  leftFold_within (multiplicative_sound hsound)
    (leftFold_within (callChain_sound hsound) (callChain_within hsound hcap))

theorem entryStep_height (hsound : Sound expr .expression) (hcap : Capped expr) {p : Property}
    (h : EntryStep expr c p c') : room c' = room c ∧ p.height ≤ cap (room c) := by
  cases h with
  | bare ht _ hu _ => exact ⟨room_past (ht.trans hu), Nat.zero_le _⟩
  | bareLast ht _ _ => exact ⟨room_past ht, Nat.zero_le _⟩
  | valued ht _ hu _ hvalue hv _ =>
    obtain ⟨w, hw, _⟩ := hsound _ _ _ hvalue
    have hle := (hcap _ _ _ hvalue).2
    rw [room_past (ht.trans hu)] at hle
    exact ⟨room_past (((ht.trans hu).trans hw).trans hv), hle⟩
  | valuedLast ht _ hu _ hvalue _ =>
    obtain ⟨w, hw, _⟩ := hsound _ _ _ hvalue
    have hle := (hcap _ _ _ hvalue).2
    rw [room_past (ht.trans hu)] at hle
    exact ⟨room_past ((ht.trans hu).trans hw), hle⟩

theorem properties_height (hsound : Sound expr .expression) (hcap : Capped expr) (n : Nat)
    {ps : List Property} (h : Gives (properties expr n) c ps c') :
    Property.heightOfList ps ≤ cap (room c) := by
  induction n generalizing ps c with
  | zero =>
    obtain ⟨rfl, rfl⟩ := gives_pure.mp h
    exact Nat.zero_le _
  | succ n ih =>
    rcases gives_properties_succ.mp h with ⟨_, rfl, rfl⟩ | ⟨_, p, d, others, hp, hothers, rfl⟩
    · exact Nat.zero_le _
    · obtain ⟨hsame, hle⟩ := entryStep_height hsound hcap hp
      have htail := ih hothers
      rw [hsame] at htail
      exact Nat.max_le.mpr ⟨hle, htail⟩

theorem objectLiteral_within (hsound : Sound expr .expression) (hcap : Capped expr) :
    Within (objectLiteral expr) 4 := by
  intro c e c' h
  rcases gives_objectLiteral.mp h with ⟨t, d, ps, d', u, ht, _, hps, _, _, rfl⟩ | ⟨_, h⟩
  · have hle := properties_height hsound hcap _ hps
    have hlt : cap (room c) < layer 4 (room c) := cap_lt_layer 3 _
    rw [room_past ht] at hle
    simp only [Expr.height]
    omega
  · exact additive_within hsound hcap _ _ _ h

theorem elements_height (hsound : Sound expr .expression) (hcap : Capped expr) (n : Nat)
    {es : List Expr} (h : Gives (elements expr n) c es c') : Expr.heightOfList es ≤ cap (room c) := by
  induction n generalizing es c with
  | zero =>
    obtain ⟨rfl, rfl⟩ := gives_pure.mp h
    exact Nat.zero_le _
  | succ n ih =>
    rcases gives_elements_succ.mp h with ⟨_, rfl, rfl⟩ | ⟨_, first, d, hfirst, h⟩
    · exact Nat.zero_le _
    · obtain ⟨w, hw, _⟩ := hsound _ _ _ hfirst
      have hhead := (hcap _ _ _ hfirst).2
      rcases h with ⟨t, d', others, ht, _, _, hothers, rfl⟩ | ⟨_, rfl, rfl⟩
      · have htail := ih hothers
        rw [room_past (hw.trans ht)] at htail
        exact Nat.max_le.mpr ⟨hhead, htail⟩
      · exact Nat.max_le.mpr ⟨hhead, Nat.zero_le _⟩

theorem arrayLiteral_within (hsound : Sound expr .expression) (hcap : Capped expr) :
    Within (arrayLiteral expr) 4 := by
  intro c e c' h
  rcases gives_arrayLiteral.mp h with ⟨t, d, es, d', u, ht, _, hes, _, _, rfl⟩ | ⟨_, h⟩
  · have hle := elements_height hsound hcap _ hes
    have hlt : cap (room c) < layer 4 (room c) := cap_lt_layer 3 _
    rw [room_past ht] at hle
    simp only [Expr.height]
    omega
  · exact objectLiteral_within hsound hcap _ _ _ h

theorem assignment_within (hsound : Sound expr .expression) (hcap : Capped expr) (n : Nat) :
    Within (assignment expr n) 4 := by
  induction n with
  | zero =>
    intro c e c' h
    exact (gives_failHere.mp h).elim
  | succ n ih =>
    intro c e c' h
    obtain ⟨target, d, htarget, h⟩ := gives_assignment_succ.mp h
    obtain ⟨w, hw, _⟩ := arrayLiteral_sound hsound _ _ _ htarget
    have hle := arrayLiteral_within hsound hcap _ _ _ htarget
    rcases h with ⟨_, t, d', value, ht, hvalue, he⟩ | ⟨_, rfl, rfl⟩
    · obtain ⟨hc, d₁, hvalue, _⟩ := gives_nested.mp hvalue
      have hroom := room_deeper (.refl _) hc
      have hdeeper := ih _ _ _ hvalue
      rw [room_past (hw.trans ht)] at hroom
      have hwritten := written_height he
      have hlayer := layer_mono 3 (Nat.le_of_succ_le (Nat.le_of_eq hroom))
      rw [layer_succ] at hdeeper hle ⊢
      omega
    · exact hle

/-- Behind a full expression no comparison is left to be read. -/
def Exhaustive (p : Parser Expr) : Prop :=
  ∀ c e c', Gives p c e c' → ¬AtComparison c'

theorem ComparisonStep.at {op : LogicalOp} {equals : Bool} (h : ComparisonStep c op equals c') :
    AtComparison c := by
  cases h with
  | order ht hk _ => exact .inl (by rw [ht.current_eq, hk])
  | orderOrEqual ht hk _ _ => exact .inl (by rw [ht.current_eq, hk])
  | equal ht hk hu huk =>
    exact .inr ⟨.inl (by rw [ht.current_eq, hk]), by rw [ht.next_eq, hu.current_eq, huk]⟩
  | notEqual ht hk hu huk =>
    exact .inr ⟨.inr (by rw [ht.current_eq, hk]), by rw [ht.next_eq, hu.current_eq, huk]⟩

theorem expressionWithin_exhaustive (n : Nat) : Exhaustive (expressionWithin n) := by
  induction n with
  | zero =>
    intro c e c' h
    exact (gives_failHere.mp h).elim
  | succ n ih =>
    intro c e c' h
    obtain ⟨_, d, hd, rfl⟩ := gives_nested.mp h
    change ¬AtComparison d
    rcases gives_negation.mp hd with ⟨t, d₁, operand, _, _, hoperand, _⟩ | ⟨_, hlogical⟩
    · exact ih _ _ _ hoperand
    · obtain ⟨first, d₁, _, h⟩ := gives_logical.mp hlogical
      rcases h with ⟨op, equals, d₂, right, _, hright, _⟩ | ⟨hnone, _, rfl⟩
      · exact ih _ _ _ hright
      · exact hnone

/-- Only one of the operators on truth values and the comparisons stands above the sums of a level:
the right operand of the former leaves nothing for the latter. -/
theorem logical_height (hsound : Sound expr .expression) (hcap : Capped expr)
    (hexh : Exhaustive expr) (h : Gives (logical expr) c e c') :
    e.height ≤ layer 4 (room c) ∨ 0 < room c ∧ e.height ≤ layer 4 (room c) + 1 := by
  obtain ⟨first, d, hfirst, h⟩ := gives_logical.mp h
  obtain ⟨w, hw, _⟩ := boolean_sound hsound _ _ _ hfirst
  obtain ⟨operand, d₁, hoperand, hfirst⟩ := gives_boolean.mp hfirst
  obtain ⟨v, hv, _⟩ := assignment_sound hsound _ _ _ _ hoperand
  have hle := assignment_within hsound hcap _ _ _ _ hoperand
  have hlayer := cap_le_layer 4 (room c)
  rcases hfirst with ⟨t, d₂, u, d₃, right, ht, _, hu, _, _, hright, rfl⟩ | ⟨_, rfl, rfl⟩
  · rcases h with ⟨op, equals, d', _, hop, _, _⟩ | ⟨_, rfl, rfl⟩
    · exact (hexh _ _ _ hright (ComparisonStep.at hop)).elim
    · obtain ⟨hpos, hright⟩ := hcap _ _ _ hright
      rw [room_past ((hv.trans ht).trans hu)] at hpos hright
      refine .inr ⟨hpos, ?_⟩
      simp only [Expr.height]
      omega
  · rcases h with ⟨op, equals, d', right, hop, hright, rfl⟩ | ⟨_, rfl, rfl⟩
    · obtain ⟨x, hx, _⟩ := comparison_sound hop
      obtain ⟨hpos, hright⟩ := hcap _ _ _ hright
      rw [room_past (hw.trans hx)] at hpos hright
      refine .inr ⟨hpos, ?_⟩
      simp only [Expr.height]
      omega
    · exact .inl hle

theorem negation_height (hsound : Sound expr .expression) (hcap : Capped expr)
    (hexh : Exhaustive expr) (h : Gives (negation expr) c e c') : e.height ≤ cap (room c + 1) := by
  have hbound : e.height ≤ layer 4 (room c) ∨ 0 < room c ∧ e.height ≤ layer 4 (room c) + 1 := by
    rcases gives_negation.mp h with ⟨t, d, operand, ht, _, hoperand, rfl⟩ | ⟨_, h⟩
    · have hle := (hcap _ _ _ hoperand).2
      have hlt : cap (room c) < layer 4 (room c) := cap_lt_layer 3 _
      rw [room_past ht] at hle
      simp only [Expr.height]
      omega
    · exact logical_height hsound hcap hexh h
  rw [cap_succ]
  rcases Nat.eq_zero_or_pos (room c) with hzero | hpos
  · rw [hzero] at hbound ⊢
    have hlayer : layer 4 0 = 1 := rfl
    omega
  · have hone : 1 ≤ cap (room c) := cap_mono hpos
    unfold layer at hbound
    omega

theorem expressionWithin_capped (n : Nat) : Capped (expressionWithin n) := by
  induction n with
  | zero =>
    intro c e c' h
    exact (gives_failHere.mp h).elim
  | succ n ih =>
    intro c e c' h
    obtain ⟨hc, d, hd, _⟩ := gives_nested.mp h
    have hroom := room_deeper (.refl _) hc
    have hle := negation_height (expressionWithin_sound n) ih (expressionWithin_exhaustive n) hd
    rw [hroom] at hle
    exact ⟨by omega, hle⟩

/-- How high the statements may grow that have `r` levels left. Every block takes one of them, and the
variable that stands for a value left out takes none. -/
def blockCap (r : Nat) : Nat :=
  max (cap r) (r + 1)

theorem blockCap_lt {r s : Nat} (h : r < s) : blockCap r < blockCap s := by
  have hmono := cap_mono (Nat.succ_le_of_lt h)
  rw [cap_succ] at hmono
  unfold blockCap
  omega

def StatementsWithin (p : Parser (List Stmt)) : Prop :=
  ∀ c ss c', Gives p c ss c' → Stmt.heightOfList ss ≤ blockCap (room c)

/-- A block is one level above the statements that it may hold. -/
def BlockWithin (p : Parser (List Stmt)) : Prop :=
  ∀ c ss c', Gives p c ss c' → 1 + Stmt.heightOfList ss ≤ blockCap (room c)

theorem expression_height (h : Gives expression c e c') : e.height ≤ blockCap (room c) :=
  Nat.le_trans (expressionWithin_capped levels _ _ _ h).2 (Nat.le_max_left _ _)

theorem omitted_height (r : Nat) : Expr.omitted.height ≤ blockCap r := by
  have hone : Expr.omitted.height = 1 := rfl
  unfold blockCap
  omega

theorem declarations_height {constant : Bool} (n : Nat) {ss : List Stmt}
    (h : Gives (declarations constant n) c ss c') : Stmt.heightOfList ss ≤ blockCap (room c) := by
  induction n generalizing ss c with
  | zero =>
    obtain ⟨rfl, rfl⟩ := gives_pure.mp h
    exact Nat.zero_le _
  | succ n ih =>
    obtain ⟨t, d, value, d₁, ht, hk, hvalue, h⟩ := gives_declarations_succ.mp h
    obtain ⟨u, hu, _⟩ := declarator_sound constant ht hk hvalue
    have hle : value.height ≤ blockCap (room c) := by
      rcases gives_initializer.mp hvalue with ⟨v, d', hv, _, hvalue⟩ | ⟨_, rfl, rfl⟩
      · rw [← room_past (ht.trans hv)]
        exact expression_height hvalue
      · exact omitted_height _
    rcases h with ⟨v, d₂, others, hv, _, hothers, rfl⟩ | ⟨_, rfl, rfl⟩
    · have htail := ih hothers
      rw [room_past (hu.trans hv)] at htail
      exact Nat.max_le.mpr ⟨hle, htail⟩
    · exact Nat.max_le.mpr ⟨hle, Nat.zero_le _⟩

theorem returnStatement_height {stmt : Stmt} (h : Gives returnStatement c stmt c') :
    stmt.height ≤ blockCap (room c) := by
  obtain ⟨t, d, ht, _, h⟩ := gives_returnStatement.mp h
  rcases h with ⟨_, rfl, rfl⟩ | ⟨_, value, hvalue, rfl⟩
  · exact omitted_height _
  · rw [← room_past ht]
    exact expression_height hvalue

theorem guarded_height {block : Parser (List Stmt)} (hblock : BlockWithin block) {d : Cursor}
    {test : Expr} {body : List Stmt} (htest : Gives condition c test d) (hbody : Gives block d body c') :
    max test.height (1 + Stmt.heightOfList body) ≤ blockCap (room c) := by
  obtain ⟨t, d₁, d₂, u, ht, _, htest, hu, _⟩ := gives_condition.mp htest
  obtain ⟨w, hw, _⟩ := expression_sound _ _ _ htest
  have hbody := hblock _ _ _ hbody
  have htest := expression_height htest
  rw [room_past ((ht.trans hw).trans hu)] at hbody
  rw [room_past ht] at htest
  exact Nat.max_le.mpr ⟨htest, hbody⟩

theorem functionDeclaration_height {block : Parser (List Stmt)} (hblock : BlockWithin block)
    {stmt : Stmt} (h : Gives (functionDeclaration block) c stmt c') :
    stmt.height ≤ blockCap (room c) := by
  obtain ⟨t, d, u, d₁, v, d₂, names, d₃, x, d₄, body, ht, _, hu, _, hv, _, hnames, hx, _, hbody, rfl⟩ :=
    gives_functionDeclaration.mp h
  obtain ⟨w, hw, _⟩ := parameters_sound _ _ _ _ hnames
  have hle := hblock _ _ _ hbody
  rw [room_past ((((ht.trans hu).trans hv).trans hw).trans hx)] at hle
  exact hle

theorem heightOfList_singleton (s : Stmt) : Stmt.heightOfList [s] = s.height :=
  Nat.max_zero _

theorem statementStep_height {block : Parser (List Stmt)} (hblock : BlockWithin block)
    {ss : List Stmt} (h : StatementStep block c ss c') : Stmt.heightOfList ss ≤ blockCap (room c) := by
  cases h with
  | nothing _ => exact Nat.zero_le _
  | struct _ h =>
    obtain ⟨_, _, _, _, _, _, _, _, _, _, _, _, _, _, _, _, _, _, _, rfl⟩ := gives_structDeclaration.mp h
    exact Nat.zero_le _
  | letOne ht _ h =>
    rw [← room_past ht]
    exact declarations_height _ h
  | constOne ht _ h =>
    rw [← room_past ht]
    exact declarations_height _ h
  | whileOne _ h =>
    obtain ⟨t, d, test, d₁, body, ht, _, htest, hbody, rfl⟩ := gives_whileStatement.mp h
    rw [heightOfList_singleton, ← room_past ht]
    exact guarded_height hblock htest hbody
  | function _ h =>
    rw [heightOfList_singleton]
    exact functionDeclaration_height hblock h
  | returned _ h =>
    rw [heightOfList_singleton]
    exact returnStatement_height h
  | ifOne _ h =>
    obtain ⟨t, d, test, d₁, body, ht, _, htest, hbody, rfl⟩ := gives_ifStatement.mp h
    rw [heightOfList_singleton, ← room_past ht]
    exact guarded_height hblock htest hbody
  | plain _ h =>
    rw [heightOfList_singleton]
    exact expression_height h

theorem statements_height {statement : Parser (List Stmt)} (hleading : Leading statement)
    (hwithin : StatementsWithin statement) (n : Nat) : StatementsWithin (statements statement n) := by
  induction n with
  | zero =>
    intro c ss c' h
    obtain ⟨rfl, rfl⟩ := gives_pure.mp h
    exact Nat.zero_le _
  | succ n ih =>
    intro c ss c' h
    rcases gives_statements_succ.mp h with ⟨_, rfl, rfl⟩ | ⟨_, first, d, others, hfirst, hothers, rfl⟩
    · exact Nat.zero_le _
    · obtain ⟨u, hu, _⟩ := hleading _ _ _ hfirst
      have hhead := hwithin _ _ _ hfirst
      have htail := ih _ _ _ hothers
      rw [room_past hu] at htail
      rw [Stmt.heightOfList_append]
      exact Nat.max_le.mpr ⟨hhead, htail⟩

theorem blockOf_within {statement : Parser (List Stmt)} (hleading : Leading statement)
    (hwithin : StatementsWithin statement) : BlockWithin (blockOf statement) := by
  intro c ss c' h
  obtain ⟨hc, t, d, d₁, u, d₂, ht, _, hbody, _, _, _⟩ := gives_blockOf.mp h
  have hle := statements_height hleading hwithin _ _ _ _ hbody
  have hroom := room_deeper ht hc
  have hlt := blockCap_lt (Nat.lt_of_succ_le (Nat.le_of_eq hroom))
  omega

theorem statementWithin_within (n : Nat) : StatementsWithin (statementWithin n) := by
  induction n with
  | zero =>
    intro c ss c' h
    exact (gives_failHere.mp h).elim
  | succ n ih =>
    intro c ss c' h
    have hblock := blockOf_within (statementWithin_leading n) ih
    have hle := statementStep_height hblock (gives_statementWith.mp h)
    exact hle

theorem topLevel_height (n : Nat) : StatementsWithin (topLevel n) := by
  induction n with
  | zero =>
    intro c ss c' h
    obtain ⟨rfl, rfl⟩ := gives_pure.mp h
    exact Nat.zero_le _
  | succ n ih =>
    intro c ss c' h
    rcases gives_topLevel_succ.mp h with ⟨_, rfl, rfl⟩ | ⟨_, _, first, d, others, hfirst, hothers, rfl⟩
    · exact Nat.zero_le _
    · obtain ⟨u, hu, _⟩ := statementWithin_leading _ _ _ _ hfirst
      have hhead := statementWithin_within _ _ _ _ hfirst
      have htail := ih _ _ _ hothers
      rw [room_past hu] at htail
      rw [Stmt.heightOfList_append]
      exact Nat.max_le.mpr ⟨hhead, htail⟩

/-- No program is higher than the folds of all levels together allow. -/
theorem height_le_of_parse {tokens : List Token} {p : Program} (h : parse tokens = .ok p) :
    p.height ≤ maxNesting * (2 * maxNesting - 1) := by
  obtain ⟨c, hc⟩ := parse_ok.mp h
  have hle := topLevel_height _ _ _ _ hc
  have hroom : room (Cursor.ofTokens tokens) = maxNesting := rfl
  have hcap : blockCap maxNesting = maxNesting * (2 * maxNesting - 1) := by decide
  rw [hroom, hcap] at hle
  exact hle

end Scriptlet.Proofs.Height
