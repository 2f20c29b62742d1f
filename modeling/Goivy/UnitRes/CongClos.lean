import Goivy.UnitRes.Clause

/-! The union-find store of equal terms. A node is identified with its term; a term that
was never asked about is its own class. -/
namespace Goivy

def FSort.sexp : FSort → String
  | .boolean => "(BooleanSort)"
  | .uninterpreted n => "(UninterpretedSort name:" ++ n ++ ")"
  | .enumerated n ext => "(EnumeratedSort name:" ++ n ++ " ext:[" ++ ",".intercalate ext ++ "])"
  | .range n lb ub => "(RangeSort name:" ++ n ++ " lb:" ++ lb ++ " ub:" ++ ub ++ ")"
  | .top n => "(TopSort name:" ++ n ++ ")"

def LSort.sexp : LSort → String
  | .first s => s.sexp
  | .function dom r =>
    "(FunctionSort sorts:[" ++ " ".intercalate ((dom ++ [r]).map FSort.sexp) ++ "])"

/-- `Sexp` of the terms that atoms are about: variables and constants. -/
def Expr.termSexp : Expr → String
  | .var v => "(Variable name:" ++ v.name ++ " sort:" ++ v.sort.sexp ++ ")"
  | .const c => "(Symbol name:" ++ c.name ++ " sort:" ++ c.sort.sexp ++ ")"
  | _ => ""

/-- `congClosOrderKey`. -/
def congClosOrderKey (t : Expr) : String :=
  (match t with
  | .var v => v.name
  | .const c => c.name
  | _ => "") ++ "\x00" ++ t.termSexp

/-- `tab` has a node for each registered term, with a pointer unless it is its own
representative. The last change is the first one of the trail. -/
structure CongClos where
  tab : List (Expr × Option Expr)
  trail : List (Expr × Option Expr)
  pushes : List Nat
deriving DecidableEq

namespace CongClos

/-- `NewCongClos`. -/
def new : CongClos := ⟨[], [], []⟩

def pointer (cc : CongClos) (t : Expr) : Option Expr := (cc.tab.lookup t).join

def assign (cc : CongClos) (n : Expr) (rep : Option Expr) : CongClos :=
  { cc with tab := cc.tab.map (fun p => if p.1 = n then (n, rep) else p) }

/-- `setRep`. -/
def setRep (cc : CongClos) (n rep : Expr) : CongClos :=
  if cc.pointer n = some rep then cc
  else { cc.assign n (some rep) with trail := (n, cc.pointer n) :: cc.trail }

/-- `getRepRec`: follows the pointers and then compresses the path. -/
def getRepRec : Nat → CongClos → Expr → Expr × CongClos
  | 0, cc, n => (n, cc)
  | fuel + 1, cc, n =>
    match cc.pointer n with
    | none => (n, cc)
    | some next =>
      let (rep, cc') := getRepRec fuel cc next
      (rep, cc'.setRep n rep)

/-- `getRepNode`. -/
def getRepNode (cc : CongClos) (t : Expr) : Expr × CongClos :=
  let cc' := if (cc.tab.lookup t).isSome then cc else { cc with tab := cc.tab ++ [(t, none)] }
  getRepRec cc'.tab.length cc' t

/-- `Find`. The path compression changes no later answer. -/
def find (cc : CongClos) (t : Expr) : Expr := (cc.getRepNode t).1

/-- `Union`, and whether it changed anything. -/
def union (cc : CongClos) (t1 t2 : Expr) : CongClos × Bool :=
  let (rep1, cc1) := cc.getRepNode t1
  let (rep2, cc2) := cc1.getRepNode t2
  if rep1 = rep2 then (cc2, false)
  else if congClosOrderKey rep1 < congClosOrderKey rep2 then (cc2.setRep rep2 rep1, true)
  else (cc2.setRep rep1 rep2, true)

def push (cc : CongClos) : CongClos := { cc with pushes := cc.trail.length :: cc.pushes }

/-- Undoes the changes of the trail down to a length. -/
def undoTo (newLen : Nat) : List (Expr × Option Expr) → CongClos → CongClos
  | [], cc => cc
  | (n, old) :: rest, cc =>
    if newLen < rest.length + 1 then undoTo newLen rest { cc.assign n old with trail := rest }
    else cc

def pop (cc : CongClos) : CongClos :=
  match cc.pushes with
  | [] => cc
  | newLen :: pushes => undoTo newLen cc.trail { cc with pushes := pushes }

/-- The store holds equalities that are true, between variables and constants. -/
structure Theory {D : Domain} (M : Structure D) (cc : CongClos) : Prop where
  sound : ∀ n rep, cc.pointer n = some rep → ∀ env, n.eval M env = rep.eval M env
  terms : ∀ n rep, cc.pointer n = some rep → rep.IsTerm

variable {D : Domain} {M : Structure D}

theorem pointer_assign (cc : CongClos) (n x : Expr) (rep : Option Expr) {r : Expr}
    (h : (cc.assign n rep).pointer x = some r) :
    (x = n ∧ rep = some r) ∨ cc.pointer x = some r := by
  unfold pointer assign at h
  unfold pointer
  generalize cc.tab = tab at h
  induction tab with
  | nil => exact .inr h
  | cons p tab ih =>
    obtain ⟨k, o⟩ := p
    rw [List.map_cons] at h
    by_cases here : k = n
    · subst here
      rw [if_pos rfl, InsMap.lookup_cons] at h
      rw [InsMap.lookup_cons]
      by_cases same : x = k
      · rw [if_pos same] at h
        exact .inl ⟨same, h⟩
      · rw [if_neg same] at h ⊢
        exact ih h
    · rw [if_neg here, InsMap.lookup_cons] at h
      rw [InsMap.lookup_cons]
      by_cases same : x = k
      · rw [if_pos same] at h ⊢
        exact .inr h
      · rw [if_neg same] at h ⊢
        exact ih h

theorem new_theory : (new : CongClos).Theory M :=
  ⟨fun _ _ h => (by cases h), fun _ _ h => (by cases h)⟩

theorem Theory.setRep {cc : CongClos} (theory : cc.Theory M) {n rep : Expr}
    (sound : ∀ env, n.eval M env = rep.eval M env) (term : rep.IsTerm) : (cc.setRep n rep).Theory M := by
  unfold CongClos.setRep
  split
  · exact theory
  · constructor
    · intro x r h
      obtain ⟨rfl, eq⟩ | h := pointer_assign cc n x (some rep) h
      · cases eq
        exact sound
      · exact theory.sound x r h
    · intro x r h
      obtain ⟨rfl, eq⟩ | h := pointer_assign cc n x (some rep) h
      · cases eq
        exact term
      · exact theory.terms x r h

theorem getRepRec_spec {cc : CongClos} (theory : cc.Theory M) (fuel : Nat) (n : Expr) :
    (getRepRec fuel cc n).2.Theory M ∧
      (∀ env, n.eval M env = (getRepRec fuel cc n).1.eval M env) ∧
      (n.IsTerm → (getRepRec fuel cc n).1.IsTerm) := by
  induction fuel generalizing cc n with
  | zero => exact ⟨theory, fun _ => rfl, fun h => h⟩
  | succ fuel ih =>
    cases h : cc.pointer n with
    | none =>
      rw [show getRepRec (fuel + 1) cc n = (n, cc) by simp only [getRepRec, h]]
      exact ⟨theory, fun _ => rfl, fun h => h⟩
    | some next =>
      obtain ⟨theory', sound, term⟩ := ih theory next
      have nextTerm := theory.terms n next h
      have sound' : ∀ env, n.eval M env = (getRepRec fuel cc next).1.eval M env :=
        fun env => (theory.sound n next h env).trans (sound env)
      simp only [getRepRec, h]
      exact ⟨theory'.setRep sound' (term nextTerm), sound', fun _ => term nextTerm⟩

theorem getRepNode_spec {cc : CongClos} (theory : cc.Theory M) (t : Expr) :
    (cc.getRepNode t).2.Theory M ∧ (∀ env, t.eval M env = (cc.find t).eval M env) ∧
      (t.IsTerm → (cc.find t).IsTerm) := by
  unfold find getRepNode
  split
  · exact getRepRec_spec theory _ t
  · refine getRepRec_spec ?_ _ t
    have registered : ∀ x r, CongClos.pointer ⟨cc.tab ++ [(t, none)], cc.trail, cc.pushes⟩ x = some r →
        cc.pointer x = some r := by
      intro x r h
      rw [pointer, List.lookup_append] at h
      rw [pointer]
      cases found : cc.tab.lookup x with
      | some o => simpa [found] using h
      | none =>
        rw [found, Option.none_or, InsMap.lookup_cons] at h
        split at h
        · cases h
        · cases h
    exact ⟨fun x r h => theory.sound x r (registered x r h),
      fun x r h => theory.terms x r (registered x r h)⟩

theorem Theory.union {cc : CongClos} (theory : cc.Theory M) {t1 t2 : Expr}
    (same : ∀ env, t1.eval M env = t2.eval M env) (term1 : t1.IsTerm) (term2 : t2.IsTerm) :
    (cc.union t1 t2).1.Theory M := by
  obtain ⟨theory1, sound1, rep1⟩ := getRepNode_spec theory t1
  obtain ⟨theory2, sound2, rep2⟩ := getRepNode_spec theory1 t2
  have reps : ∀ env, (cc.getRepNode t1).1.eval M env =
      ((cc.getRepNode t1).2.getRepNode t2).1.eval M env := fun env =>
    (sound1 env).symm.trans ((same env).trans (sound2 env))
  unfold CongClos.union
  simp only
  split
  · exact theory2
  · split
    · exact theory2.setRep (fun env => (reps env).symm) (rep1 term1)
    · exact theory2.setRep reps (rep2 term2)

end CongClos

end Goivy
