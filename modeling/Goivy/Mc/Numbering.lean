import Goivy.Mc.Aiger

/-! What the operations on a circuit add: gates with the next numbers, and a literal with
the value of the operation. -/
namespace Goivy

namespace Aiger

theorem litValue_notl (v : Nat → Bool) (l : Nat) : litValue v (notl l) = !litValue v l := by
  have half : notl l / 2 = l / 2 := by
    unfold notl
    omega
  obtain even | odd := Nat.mod_two_eq_zero_or_one l
  · have : notl l % 2 = 1 := by
      unfold notl
      omega
    simp [litValue, half, this, even]
  · have : notl l % 2 = 0 := by
      unfold notl
      omega
    simp [litValue, half, this, odd]

/-- The gates are numbered from the last latch on, and every set literal exists. -/
structure Numbered (a : Aiger) : Prop where
  ordered : Circuit.Ordered (a.inputs.length + a.latches.length + 1) a.gates
  nextID : a.nextID = a.inputs.length + a.latches.length + 1 + a.gates.length
  value : ∀ x, a.value x < 2 * a.nextID

/-- A circuit with more gates. -/
structure Grows (a a' : Aiger) : Prop where
  inputs : a'.inputs = a.inputs
  latches : a'.latches = a.latches
  outputs : a'.outputs = a.outputs
  varMap : a'.varMap = a.varMap
  values : a'.values = a.values
  numbered : a'.Numbered
  nextID : a.nextID ≤ a'.nextID
  gates : a.gates <+: a'.gates

theorem Grows.refl {a : Aiger} (numbered : a.Numbered) : a.Grows a :=
  ⟨rfl, rfl, rfl, rfl, rfl, numbered, Nat.le_refl _, List.prefix_rfl⟩

theorem Grows.trans {a b c : Aiger} (h : a.Grows b) (h' : b.Grows c) : a.Grows c :=
  ⟨h'.inputs.trans h.inputs, h'.latches.trans h.latches, h'.outputs.trans h.outputs,
    h'.varMap.trans h.varMap, h'.values.trans h.values, h'.numbered, Nat.le_trans h.nextID h'.nextID,
    h.gates.trans h'.gates⟩

theorem Grows.exists_ {a a' : Aiger} (grows : a.Grows a') {l : Nat} (h : l < 2 * a.nextID) :
    l < 2 * a'.nextID := by
  have := grows.nextID
  omega

theorem settled_of_grows {a a' : Aiger} (grows : a.Grows a') {v : Nat → Bool}
    (settled : Circuit.Settled a'.gates v) : Circuit.Settled a.gates v :=
  fun g hg => settled g (grows.gates.subset hg)

/-- A literal of a larger circuit that has the value wherever the gates settle. -/
structure Yields (a : Aiger) (r : Aiger × Nat) (value : (Nat → Bool) → Bool) : Prop where
  grows : a.Grows r.1
  exists_ : r.2 < 2 * r.1.nextID
  means : ∀ v, Circuit.Settled r.1.gates v → litValue v r.2 = value v

theorem addGate_yields {a : Aiger} (numbered : a.Numbered) {x y : Nat} (hx : x < 2 * a.nextID)
    (hy : y < 2 * a.nextID) :
    a.Yields (a.addGate x y) (fun v => litValue v x && litValue v y) := by
  have pos : 0 < a.nextID := by
    rw [numbered.nextID]
    omega
  have comm : a.nextID * 2 = 2 * a.nextID := Nat.mul_comm ..
  have ordered : Circuit.Ordered (a.inputs.length + a.latches.length + 1)
      (a.gates ++ [(a.nextID * 2, x, y)]) := by
    rw [comm, numbered.nextID]
    rw [numbered.nextID] at hx hy
    exact Circuit.ordered_append numbered.ordered hx hy
  refine ⟨⟨rfl, rfl, rfl, rfl, rfl, ⟨ordered, ?_, fun z => ?_⟩, Nat.le_succ _,
    List.prefix_append ..⟩, ?_, fun v settled => ?_⟩
  · have := numbered.nextID
    simp only [addGate, List.length_append, List.length_singleton]
    omega
  · have := numbered.value z
    simp only [addGate, value] at this ⊢
    omega
  · simp only [addGate]
    omega
  · have gate := settled (a.nextID * 2, x, y) (by simp [addGate])
    simp only [addGate]
    rw [comm] at gate ⊢
    rw [litValue_even v pos, ← gate, Nat.mul_div_cancel_left _ Nat.zero_lt_two]

theorem andlFrom_yields {a : Aiger} (numbered : a.Numbered) {res : Nat} {xs : List Nat}
    (hres : res < 2 * a.nextID) (hxs : ∀ x ∈ xs, x < 2 * a.nextID) :
    a.Yields (a.andlFrom res xs) (fun v => litValue v res && xs.all (litValue v)) := by
  induction xs generalizing a res with
  | nil => exact ⟨.refl numbered, hres, fun v _ => (Bool.and_true _).symm⟩
  | cons x xs ih =>
    have gate := addGate_yields numbered hres (hxs x List.mem_cons_self)
    have rest := ih gate.grows.numbered gate.exists_ fun y hy =>
      gate.grows.exists_ (hxs y (List.mem_cons_of_mem _ hy))
    refine ⟨gate.grows.trans rest.grows, rest.exists_, fun v settled => ?_⟩
    rw [andlFrom, rest.means v settled, gate.means v (settled_of_grows rest.grows settled),
      List.all_cons, Bool.and_assoc]

theorem andl_yields {a : Aiger} (numbered : a.Numbered) (xs : List Nat)
    (hxs : ∀ x ∈ xs, x < 2 * a.nextID) : a.Yields (a.andl xs) (fun v => xs.all (litValue v)) := by
  cases xs with
  | nil =>
    refine ⟨.refl numbered, ?_, fun v _ => litValue_one v⟩
    have := numbered.nextID
    simp only [andl]
    omega
  | cons x xs =>
    exact andlFrom_yields numbered (hxs x List.mem_cons_self) fun y hy =>
      hxs y (List.mem_cons_of_mem _ hy)

theorem notl_lt {l n : Nat} (h : l < 2 * n) : notl l < 2 * n := by
  unfold notl
  omega

theorem Yields.notl {a : Aiger} {r : Aiger × Nat} {value : (Nat → Bool) → Bool}
    (h : a.Yields r value) : a.Yields (r.1, Aiger.notl r.2) (fun v => !value v) :=
  ⟨h.grows, notl_lt h.exists_, fun v settled => by rw [litValue_notl, h.means v settled]⟩

theorem orl_yields {a : Aiger} (numbered : a.Numbered) (xs : List Nat)
    (hxs : ∀ x ∈ xs, x < 2 * a.nextID) : a.Yields (a.orl xs) (fun v => xs.any (litValue v)) := by
  cases xs with
  | nil =>
    refine ⟨.refl numbered, ?_, fun v _ => litValue_zero v⟩
    have := numbered.nextID
    simp only [orl]
    omega
  | cons x xs =>
    have negated : ∀ y ∈ (x :: xs).map Aiger.notl, y < 2 * a.nextID := by
      intro y hy
      obtain ⟨z, hz, rfl⟩ := List.mem_map.mp hy
      exact notl_lt (hxs z hz)
    have h := (andl_yields numbered _ negated).notl
    refine ⟨h.grows, h.exists_, fun v settled => (h.means v settled).trans ?_⟩
    rw [List.all_map, List.not_all_eq_any_not]
    congr 1
    funext y
    rw [Function.comp, litValue_notl, Bool.not_not]

/-- Two conjunctions, and then their disjunction. -/
theorem orl_andl_yields {a : Aiger} (numbered : a.Numbered) {x y z w : Nat} (hx : x < 2 * a.nextID)
    (hy : y < 2 * a.nextID) (hz : z < 2 * a.nextID) (hw : w < 2 * a.nextID) :
    a.Yields (((a.andl [x, y]).1.andl [z, w]).1.orl
        [(a.andl [x, y]).2, ((a.andl [x, y]).1.andl [z, w]).2])
      (fun v => litValue v x && litValue v y || litValue v z && litValue v w) := by
  have first := andl_yields numbered [x, y] (by simp [hx, hy])
  have second := andl_yields first.grows.numbered [z, w]
    (by simp [first.grows.exists_ hz, first.grows.exists_ hw])
  have result := orl_yields second.grows.numbered
    [(a.andl [x, y]).2, ((a.andl [x, y]).1.andl [z, w]).2]
    (by simp [second.grows.exists_ first.exists_, second.exists_])
  refine ⟨first.grows.trans (second.grows.trans result.grows), result.exists_, fun v settled => ?_⟩
  have settled₂ := settled_of_grows result.grows settled
  have settled₁ := settled_of_grows second.grows settled₂
  simp [result.means v settled, first.means v settled₁, second.means v settled₂]

theorem ite_yields {a : Aiger} (numbered : a.Numbered) {x y z : Nat} (hx : x < 2 * a.nextID)
    (hy : y < 2 * a.nextID) (hz : z < 2 * a.nextID) :
    a.Yields (a.ite x y z) (fun v => bif litValue v x then litValue v y else litValue v z) := by
  have h := orl_andl_yields numbered hx hy (notl_lt hx) hz
  refine ⟨h.grows, h.exists_, fun v settled => (h.means v settled).trans ?_⟩
  rw [litValue_notl]
  cases litValue v x <;> simp

theorem iff_yields {a : Aiger} (numbered : a.Numbered) {x y : Nat} (hx : x < 2 * a.nextID)
    (hy : y < 2 * a.nextID) : a.Yields (a.iff x y) (fun v => litValue v x == litValue v y) := by
  have h := orl_andl_yields numbered hx hy (notl_lt hx) (notl_lt hy)
  refine ⟨h.grows, h.exists_, fun v settled => (h.means v settled).trans ?_⟩
  rw [litValue_notl, litValue_notl]
  cases litValue v x <;> simp

theorem impliesL_yields {a : Aiger} (numbered : a.Numbered) {x y : Nat} (hx : x < 2 * a.nextID)
    (hy : y < 2 * a.nextID) :
    a.Yields (a.impliesL x y) (fun v => !litValue v x || litValue v y) := by
  have h := orl_yields numbered [Aiger.notl x, y] (by simp [notl_lt hx, hy])
  refine ⟨h.grows, h.exists_, fun v settled => (h.means v settled).trans ?_⟩
  simp [litValue_notl]

theorem xor_yields {a : Aiger} (numbered : a.Numbered) {x y : Nat} (hx : x < 2 * a.nextID)
    (hy : y < 2 * a.nextID) : a.Yields (a.xor x y) (fun v => litValue v x != litValue v y) :=
  (iff_yields numbered hx hy).notl

end Aiger

end Goivy
