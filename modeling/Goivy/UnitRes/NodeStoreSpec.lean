import Goivy.UnitRes.NodeStore
import Mathlib.Data.List.Nodup
import Mathlib.Data.List.Perm.Subperm
import Mathlib.Data.List.Range

/-! The store of equal terms refines a stack of equivalence relations. -/
namespace Goivy.NodeStore

open PointerForest

variable {τ κ Ω : Type} {key : τ → κ} {live : List (τ × τ)}

theorem Joined.trans {s t u : τ} (h : Joined key live s t) (h' : Joined key live t u) :
    Joined key live s u :=
  Relation.EqvGen.trans s t u h h'

theorem Joined.refl (s : τ) : Joined key live s s := Relation.EqvGen.refl s

theorem Joined.symm {s t : τ} (h : Joined key live s t) : Joined key live t s :=
  Relation.EqvGen.symm s t h

theorem Joined.of_key {s t : τ} (same : key s = key t) : Joined key live s t :=
  Relation.EqvGen.rel s t (.inl same)

theorem Joined.mono {live' : List (τ × τ)} (sub : live ⊆ live') {s t : τ} (h : Joined key live s t) :
    Joined key live' s t :=
  Relation.EqvGen.mono (fun _ _ edge => Or.imp_right (fun mem => sub mem) edge) s t h

def terms (cc : NodeStore τ κ) : List τ := cc.nodes.map TermNode.term

variable {cc : NodeStore τ κ}

theorem length_terms (cc : NodeStore τ κ) : cc.terms.length = cc.nodes.length := List.length_map _

theorem rep_assign {n : Nat} (here : n < cc.nodes.length) (r : Option Nat) :
    (cc.assign n r).rep = Function.update cc.rep n r := by
  funext k
  unfold rep assign
  rw [List.getElem?_modify]
  by_cases same : k = n
  · subst same
    simp [here]
  · rw [Function.update_of_ne same]
    cases cc.nodes[k]? <;> simp [Ne.symm same]

theorem terms_assign (cc : NodeStore τ κ) (n : Nat) (r : Option Nat) :
    (cc.assign n r).terms = cc.terms := by
  refine List.ext_getElem? fun k => ?_
  unfold terms assign
  simp only [List.getElem?_map, List.getElem?_modify]
  cases cc.nodes[k]? with
  | none => rfl
  | some node =>
    simp only [Option.map_eq_map, Option.map_some]
    split <;> rfl

/-- The same terms and nodes, on the same saved lengths. -/
structure SameTerms (cc cc' : NodeStore τ κ) : Prop where
  tab : cc'.tab = cc.tab
  terms : cc'.terms = cc.terms
  length : cc'.nodes.length = cc.nodes.length
  pushes : cc'.pushes = cc.pushes

theorem SameTerms.trans {a b c : NodeStore τ κ} (h : SameTerms a b) (h' : SameTerms b c) :
    SameTerms a c :=
  ⟨h'.tab.trans h.tab, h'.terms.trans h.terms, h'.length.trans h.length, h'.pushes.trans h.pushes⟩

variable [DecidableEq κ] [LinearOrder Ω] {orderKey : τ → Ω} {tab : List (κ × Nat)} {ts : List τ}
  {ptr : Nat → Option Nat}

/-- The pointers of a store, for the unions it stands for. -/
structure Good (key : τ → κ) (orderKey : τ → Ω) (live : List (τ × τ)) (tab : List (κ × Nat))
    (ts : List τ) (ptr : Nat → Option Nat) : Prop where
  registered : ∀ k i, tab.lookup k = some i ↔ ∃ t, ts[i]? = some t ∧ key t = k
  ranked : ∃ rank, Ranked ptr rank
  edge : ∀ i j, ptr i = some j → ∃ s t, ts[i]? = some s ∧ ts[j]? = some t ∧
    orderKey t ≤ orderKey s ∧ Joined key live s t
  complete : ∀ s t, (s, t) ∈ live → ∃ i j r, tab.lookup (key s) = some i ∧
    tab.lookup (key t) = some j ∧ RootOf ptr i r ∧ RootOf ptr j r

namespace Good

variable (good : Good key orderKey live tab ts ptr) {i j r : Nat}
include good

theorem exists_root (i : Nat) : ∃ r, RootOf ptr i r :=
  good.ranked.elim fun _ ranked => PointerForest.exists_root ranked i

/-- The root of a node is joined with it and not larger. -/
theorem root (path : RootOf ptr i r) {s : τ} (here : ts[i]? = some s) :
    ∃ t, ts[r]? = some t ∧ orderKey t ≤ orderKey s ∧ Joined key live s t := by
  induction path generalizing s with
  | self _ => exact ⟨s, here, le_rfl, .refl s⟩
  | step edge _ ih =>
    obtain ⟨s', t, here', next, less, joined⟩ := good.edge _ _ edge
    rw [here] at here'
    cases here'
    obtain ⟨u, last, less', joined'⟩ := ih next
    exact ⟨u, last, less'.trans less, joined.trans joined'⟩

theorem index_unique {s t : τ} (hi : ts[i]? = some s) (hj : ts[j]? = some t)
    (same : key s = key t) : i = j := by
  have first := (good.registered (key s) i).mpr ⟨s, hi, rfl⟩
  have second := (good.registered (key s) j).mpr ⟨t, hj, same.symm⟩
  exact Option.some.inj (first.symm.trans second)

/-- Two terms are joined when they have one key or registered nodes with one root. -/
theorem joined_iff {s t : τ} : Joined key live s t ↔ key s = key t ∨ ∃ i j r,
    tab.lookup (key s) = some i ∧ tab.lookup (key t) = some j ∧ RootOf ptr i r ∧ RootOf ptr j r := by
  constructor
  · intro joined
    induction joined with
    | rel s t edge => exact edge.imp_right fun mem => good.complete s t mem
    | refl s => exact .inl rfl
    | symm s t _ ih =>
      obtain same | ⟨i, j, r, hi, hj, pi, pj⟩ := ih
      · exact .inl same.symm
      · exact .inr ⟨j, i, r, hj, hi, pj, pi⟩
    | trans s t u _ _ ih ih' =>
      obtain same | ⟨i, j, r, hi, hj, pi, pj⟩ := ih
      · rw [same]
        exact ih'
      · obtain same | ⟨j', k, r', hj', hk, pj', pk⟩ := ih'
        · exact .inr ⟨i, j, r, hi, same ▸ hj, pi, pj⟩
        · rw [hj] at hj'
          cases hj'
          exact .inr ⟨i, k, r, hi, hk, pi, pj.unique pj' ▸ pk⟩
  · rintro (same | ⟨i, j, r, hi, hj, pi, pj⟩)
    · exact .of_key same
    · obtain ⟨s', hs, keyS⟩ := (good.registered _ i).mp hi
      obtain ⟨t', ht, keyT⟩ := (good.registered _ j).mp hj
      obtain ⟨u, hu, _, joinedS⟩ := good.root pi hs
      obtain ⟨u', hu', _, joinedT⟩ := good.root pj ht
      rw [hu] at hu'
      cases hu'
      exact (Joined.of_key keyS.symm).trans (joinedS.trans (joinedT.symm.trans (.of_key keyT)))

theorem compress (path : RootOf ptr i r) (ne : i ≠ r) :
    Good key orderKey live tab ts (Function.update ptr i (some r)) := by
  obtain ⟨rank, ranked⟩ := good.ranked
  refine ⟨good.registered, ⟨rank, compress_ranked path ne ranked⟩, fun k l edge => ?_, fun s t mem => ?_⟩
  · by_cases here : k = i
    · subst here
      rw [Function.update_self] at edge
      cases edge
      cases path with
      | self => exact absurd rfl ne
      | step first rest =>
        obtain ⟨s, _, hs, _⟩ := good.edge _ _ first
        obtain ⟨t, ht, less, joined⟩ := good.root (.step first rest) hs
        exact ⟨s, t, hs, ht, less, joined⟩
    · rw [Function.update_of_ne here] at edge
      exact good.edge k l edge
  · obtain ⟨k, l, t, hk, hl, pk, pl⟩ := good.complete s t mem
    exact ⟨k, l, _, hk, hl, rootOf_compress_of path ne pk, rootOf_compress_of path ne pl⟩

/-- The pointers serve for more unions when these join nothing new. -/
theorem absorb {live' : List (τ × τ)} (sub : live ⊆ live')
    (new : ∀ s t, (s, t) ∈ live' → (s, t) ∈ live ∨ ∃ i j r, tab.lookup (key s) = some i ∧
      tab.lookup (key t) = some j ∧ RootOf ptr i r ∧ RootOf ptr j r) :
    Good key orderKey live' tab ts ptr := by
  refine ⟨good.registered, good.ranked, fun i j edge => ?_, fun s t mem => ?_⟩
  · obtain ⟨s, t, hs, ht, less, joined⟩ := good.edge i j edge
    exact ⟨s, t, hs, ht, less, joined.mono sub⟩
  · exact (new s t mem).elim (good.complete s t) fun h => h

/-- Linking the roots of two terms joins them. -/
theorem link {s t : τ} (hi : ts[i]? = some s) (hj : ts[j]? = some t) (rootI : ptr i = none)
    (rootJ : ptr j = none) (ne : i ≠ j) (less : orderKey t ≤ orderKey s) {live' : List (τ × τ)}
    (sub : live ⊆ live') (joined : Joined key live' s t)
    (new : ∀ u v, (u, v) ∈ live' → (u, v) ∈ live ∨ ∃ k l, tab.lookup (key u) = some k ∧
      tab.lookup (key v) = some l ∧ (RootOf ptr k i ∧ RootOf ptr l j ∨ RootOf ptr k j ∧ RootOf ptr l i)) :
    Good key orderKey live' tab ts (Function.update ptr i (some j)) := by
  obtain ⟨rank, ranked⟩ := good.ranked
  refine ⟨good.registered, link_ranked rootJ ne ranked, fun k l edge => ?_, fun u v mem => ?_⟩
  · by_cases here : k = i
    · subst here
      rw [Function.update_self] at edge
      cases edge
      exact ⟨s, t, hi, hj, less, joined⟩
    · rw [Function.update_of_ne here] at edge
      obtain ⟨s', t', hs, ht, less', joined'⟩ := good.edge k l edge
      exact ⟨s', t', hs, ht, less', joined'.mono sub⟩
  · have linked : ∀ {k r}, RootOf ptr k r →
        RootOf (Function.update ptr i (some j)) k (if r = i then j else r) :=
      fun path => rootOf_link_of rootI rootJ ne path
    obtain old | ⟨k, l, hk, hl, paths⟩ := new u v mem
    · obtain ⟨k, l, r, hk, hl, pk, pl⟩ := good.complete u v old
      exact ⟨k, l, _, hk, hl, linked pk, linked pl⟩
    · refine ⟨k, l, j, hk, hl, ?_⟩
      obtain ⟨pk, pl⟩ | ⟨pk, pl⟩ := paths
      · have first := linked pk
        have second := linked pl
        rw [if_pos rfl] at first
        rw [if_neg ne.symm] at second
        exact ⟨first, second⟩
      · have first := linked pk
        have second := linked pl
        rw [if_neg ne.symm] at first
        rw [if_pos rfl] at second
        exact ⟨first, second⟩

/-- A new term is a root of its own. -/
theorem add {t : τ} (fresh : tab.lookup (key t) = none) :
    Good key orderKey live ((key t, ts.length) :: tab) (ts ++ [t]) ptr := by
  have keep : ∀ {i s}, ts[i]? = some s → (ts ++ [t])[i]? = some s := fun here => by
    rw [List.getElem?_append_left (List.getElem?_eq_some_iff.mp here).1, here]
  have old : ∀ {k i}, tab.lookup k = some i → List.lookup k ((key t, ts.length) :: tab) = some i := by
    intro k i found
    have ne : (k == key t) = false := beq_false_of_ne fun same => by
      rw [same, fresh] at found
      cases found
    rw [List.lookup_cons, ne]
    exact found
  refine ⟨fun k i => ?_, good.ranked, fun i j edge => ?_, fun u v mem => ?_⟩
  · by_cases here : k = key t
    · subst here
      rw [List.lookup_cons, beq_self_eq_true]
      constructor
      · intro eq
        cases eq
        exact ⟨t, List.getElem?_concat_length, rfl⟩
      · rintro ⟨s, found, same⟩
        obtain less | eq := Nat.lt_or_ge i ts.length
        · rw [List.getElem?_append_left less] at found
          rw [(good.registered (key t) i).mpr ⟨s, found, same⟩] at fresh
          cases fresh
        · have bound := (List.getElem?_eq_some_iff.mp found).1
          simp only [List.length_append, List.length_singleton] at bound
          exact congrArg some (by omega)
    · rw [List.lookup_cons, beq_false_of_ne here]
      simp only [good.registered]
      constructor
      · rintro ⟨s, found, same⟩
        exact ⟨s, keep found, same⟩
      · rintro ⟨s, found, same⟩
        obtain less | eq := Nat.lt_or_ge i ts.length
        · rw [List.getElem?_append_left less] at found
          exact ⟨s, found, same⟩
        · have bound := (List.getElem?_eq_some_iff.mp found).1
          simp only [List.length_append, List.length_singleton] at bound
          obtain rfl : i = ts.length := by omega
          rw [List.getElem?_concat_length] at found
          cases found
          exact absurd same.symm here
  · obtain ⟨s, u, hs, hu, less, joined⟩ := good.edge i j edge
    exact ⟨s, u, keep hs, keep hu, less, joined⟩
  · obtain ⟨i, j, r, hi, hj, pi, pj⟩ := good.complete u v mem
    exact ⟨i, j, r, old hi, old hj, pi, pj⟩

end Good

/-- The pointers after undoing the changes of the trail down to a length. -/
def restore (newLen : Nat) : List (Nat × Option Nat) → (Nat → Option Nat) → Nat → Option Nat
  | [], ptr => ptr
  | (n, old) :: rest, ptr =>
    if newLen ≤ rest.length then restore newLen rest (Function.update ptr n old) else ptr

/-- Undoing down to each saved length leads to pointers for the unions saved with it. -/
def Stacked (key : τ → κ) (orderKey : τ → Ω) (tab : List (κ × Nat)) (ts : List τ) :
    List Nat → List (List (τ × τ)) → List (Nat × Option Nat) → (Nat → Option Nat) → Prop
  | [], [], _, _ => True
  | newLen :: pushes, live :: saved, trail, ptr => newLen ≤ trail.length ∧
      Good key orderKey live tab ts (restore newLen trail ptr) ∧
      Stacked key orderKey tab ts pushes saved (trail.drop (trail.length - newLen))
        (restore newLen trail ptr)
  | _, _, _, _ => False

theorem restore_self (trail : List (Nat × Option Nat)) (ptr : Nat → Option Nat) :
    restore trail.length trail ptr = ptr := by
  cases trail with
  | nil => rfl
  | cons change trail => rw [restore, if_neg (by simp)]

/-- A change that is on the trail is undone with it. -/
theorem restore_change {newLen : Nat} {trail : List (Nat × Option Nat)} (within : newLen ≤ trail.length)
    (n : Nat) (r : Option Nat) :
    restore newLen ((n, ptr n) :: trail) (Function.update ptr n r) = restore newLen trail ptr := by
  rw [restore, if_pos within, Function.update_idem, Function.update_eq_self]

variable {pushes : List Nat} {saved : List (List (τ × τ))} {trail : List (Nat × Option Nat)}

theorem Stacked.change (stacked : Stacked key orderKey tab ts pushes saved trail ptr) (n : Nat)
    (r : Option Nat) :
    Stacked key orderKey tab ts pushes saved ((n, ptr n) :: trail) (Function.update ptr n r) := by
  match pushes, saved with
  | [], [] => trivial
  | newLen :: pushes, live :: saved =>
    obtain ⟨within, good, rest⟩ := stacked
    have drop : ((n, ptr n) :: trail).drop (((n, ptr n) :: trail).length - newLen) =
        trail.drop (trail.length - newLen) := by
      rw [List.length_cons, Nat.succ_sub within, List.drop_succ_cons]
    rw [Stacked, drop, restore_change within]
    exact ⟨Nat.le_succ_of_le within, good, rest⟩

theorem Stacked.add (stacked : Stacked key orderKey tab ts pushes saved trail ptr) {t : τ}
    (fresh : tab.lookup (key t) = none) :
    Stacked key orderKey ((key t, ts.length) :: tab) (ts ++ [t]) pushes saved trail ptr := by
  induction pushes generalizing saved trail ptr with
  | nil =>
    cases saved with
    | nil => trivial
    | cons => exact stacked
  | cons newLen pushes ih =>
    cases saved with
    | nil => exact stacked
    | cons live saved => exact ⟨stacked.1, stacked.2.1.add fresh, ih stacked.2.2⟩

/-- What holds of a store and the unions it stands for. -/
structure Inv (key : τ → κ) (orderKey : τ → Ω) (cc : NodeStore τ κ) (u : Unions τ) : Prop where
  good : Good key orderKey u.current cc.tab cc.terms cc.rep
  stacked : Stacked key orderKey cc.tab cc.terms cc.pushes u.saved cc.trail cc.rep
  within : ∀ p ∈ cc.trail, p.1 < cc.nodes.length

variable {u : Unions τ}

theorem setRep_spec {saved : List (List (τ × τ))} {n : Nat} (here : n < cc.nodes.length) (r : Nat)
    (stacked : Stacked key orderKey cc.tab cc.terms cc.pushes saved cc.trail cc.rep)
    (within : ∀ p ∈ cc.trail, p.1 < cc.nodes.length) :
    (cc.setRep n r).rep = Function.update cc.rep n (some r) ∧ SameTerms cc (cc.setRep n r) ∧
      Stacked key orderKey cc.tab cc.terms cc.pushes saved (cc.setRep n r).trail (cc.setRep n r).rep ∧
      ∀ p ∈ (cc.setRep n r).trail, p.1 < cc.nodes.length := by
  unfold setRep
  split
  · rename_i same
    exact ⟨by rw [← same, Function.update_eq_self], ⟨rfl, rfl, rfl, rfl⟩, stacked, within⟩
  · have rep := rep_assign here (some r)
    have changed := stacked.change n (some r)
    rw [← rep] at changed
    exact ⟨rep, ⟨rfl, terms_assign cc n _, by simp [assign], rfl⟩, changed,
      List.forall_mem_cons.mpr ⟨here, within⟩⟩

/-- The chain of pointers visits no node twice, so the fuel leads to its end. -/
theorem getRepRec_spec (inv : Inv key orderKey cc u) {rank : Nat → Nat} (ranked : Ranked cc.rep rank)
    {n : Nat} (here : n < cc.nodes.length) (fuel : Nat) (visited : List Nat) (nodup : visited.Nodup)
    (inside : ∀ k ∈ visited, k < cc.nodes.length) (above : ∀ k ∈ visited, rank n < rank k)
    (enough : cc.nodes.length + 1 ≤ fuel + visited.length) :
    ∃ r cc', getRepRec fuel cc n = some (r, cc') ∧ RootOf cc.rep n r ∧ r < cc.nodes.length ∧
      Inv key orderKey cc' u ∧ SameTerms cc cc' ∧ ∀ k s, RootOf cc'.rep k s ↔ RootOf cc.rep k s := by
  have nodup' : (n :: visited).Nodup :=
    List.nodup_cons.mpr ⟨fun mem => lt_irrefl _ (above n mem), nodup⟩
  have inside' : ∀ k ∈ n :: visited, k < cc.nodes.length := List.forall_mem_cons.mpr ⟨here, inside⟩
  induction fuel generalizing n visited with
  | zero =>
    have subset : n :: visited ⊆ List.range cc.nodes.length := fun k mem =>
      List.mem_range.mpr (inside' k mem)
    have length := (List.subperm_of_subset nodup' subset).length_le
    rw [List.length_cons, List.length_range] at length
    omega
  | succ fuel ih =>
    cases edge : cc.rep n with
    | none =>
      refine ⟨n, cc, by rw [getRepRec, edge], .self edge, here, inv, ⟨rfl, rfl, rfl, rfl⟩, fun _ _ => .rfl⟩
    | some next =>
      obtain ⟨_, t, _, there, _⟩ := inv.good.edge n next edge
      have there : next < cc.nodes.length := length_terms cc ▸ (List.getElem?_eq_some_iff.mp there).1
      have less := ranked n next edge
      have above' : ∀ k ∈ n :: visited, rank next < rank k :=
        List.forall_mem_cons.mpr ⟨less, fun k mem => less.trans (above k mem)⟩
      obtain ⟨r, cc', run, path, bound, inv', same, roots⟩ := ih there (n :: visited) nodup' inside' above'
        (by simp only [List.length_cons]; omega)
        (List.nodup_cons.mpr ⟨fun mem => lt_irrefl _ (above' next mem), nodup'⟩)
        (List.forall_mem_cons.mpr ⟨there, inside'⟩)
      have ne : n ≠ r := by
        rintro rfl
        rw [path.root] at edge
        cases edge
      have path' := (roots n r).mpr (.step edge path)
      obtain ⟨rep, same', stacked, within⟩ := setRep_spec (same.length ▸ here) r inv'.stacked inv'.within
      refine ⟨r, cc'.setRep n r, by simp [getRepRec, edge, run], .step edge path, bound,
        ⟨?_, ?_, ?_⟩, same.trans same', fun k s => ?_⟩
      · rw [same'.tab, same'.terms, rep]
        exact inv'.good.compress path' ne
      · rw [same'.tab, same'.terms, same'.pushes]
        exact stacked
      · rw [same'.length]
        exact within
      · obtain ⟨_, ranked'⟩ := inv'.good.ranked
        rw [rep, rootOf_compress path' ne ranked', roots]

theorem getRep_spec (inv : Inv key orderKey cc u) {n : Nat} (here : n < cc.nodes.length) :
    ∃ r cc', getRepRec (cc.nodes.length + 1) cc n = some (r, cc') ∧ RootOf cc.rep n r ∧
      r < cc.nodes.length ∧ Inv key orderKey cc' u ∧ SameTerms cc cc' ∧
      ∀ k s, RootOf cc'.rep k s ↔ RootOf cc.rep k s :=
  inv.good.ranked.elim fun _ ranked => getRepRec_spec inv ranked here _ [] List.nodup_nil
    (by simp) (by simp) (by simp)

/-- The node of a term, in a store that has one for it. -/
theorem register_spec (inv : Inv key orderKey cc u) (t : τ) :
    ∃ n cc', cc.register key t = (n, cc') ∧ Inv key orderKey cc' u ∧ n < cc'.nodes.length ∧
      cc'.tab.lookup (key t) = some n ∧ cc'.rep = cc.rep ∧ cc'.pushes = cc.pushes ∧
      (∀ (k : κ) (i : Nat), cc.tab.lookup k = some i → cc'.tab.lookup k = some i) ∧
      (cc.tab.lookup (key t) = none → cc'.terms[n]? = some t) ∧
      ∀ (i : Nat) (s : τ), cc.terms[i]? = some s → cc'.terms[i]? = some s := by
  unfold register
  cases found : cc.tab.lookup (key t) with
  | some n =>
    obtain ⟨s, here, _⟩ := (inv.good.registered _ n).mp found
    have bound : n < cc.nodes.length := length_terms cc ▸ (List.getElem?_eq_some_iff.mp here).1
    exact ⟨n, cc, rfl, inv, bound, found, rfl, rfl, fun _ _ h => h, nofun, fun _ _ h => h⟩
  | none =>
    have terms : NodeStore.terms { cc with
        tab := (key t, cc.nodes.length) :: cc.tab
        nodes := cc.nodes ++ [⟨t, none⟩] } = cc.terms ++ [t] := by simp [NodeStore.terms]
    have rep : NodeStore.rep { cc with
        tab := (key t, cc.nodes.length) :: cc.tab
        nodes := cc.nodes ++ [⟨t, none⟩] } = cc.rep := by
      funext k
      unfold NodeStore.rep
      obtain less | beyond := Nat.lt_or_ge k cc.nodes.length
      · rw [List.getElem?_append_left less]
      · rw [List.getElem?_append_right beyond, List.getElem?_eq_none beyond]
        cases k - cc.nodes.length <;> rfl
    have good := inv.good.add found
    have stacked := inv.stacked.add found
    rw [length_terms] at good stacked
    refine ⟨_, _, rfl, ⟨?_, ?_, ?_⟩, by simp, ?_, rep, rfl, ?_, ?_, ?_⟩
    · rw [terms, rep]
      exact good
    · rw [terms, rep]
      exact stacked
    · intro p mem
      simpa using Nat.lt_succ_of_lt (inv.within p mem)
    · simp
    · intro k i old
      have ne : (k == key t) = false := beq_false_of_ne fun same => by
        rw [same, found] at old
        cases old
      rw [List.lookup_cons, ne]
      exact old
    · intro _
      rw [terms, ← length_terms, List.getElem?_concat_length]
    · intro i s old
      rw [terms, List.getElem?_append_left (List.getElem?_eq_some_iff.mp old).1, old]

/-- The store goes on from `cc` to `cc'`: its terms keep their nodes and their roots. -/
structure Extends (cc cc' : NodeStore τ κ) : Prop where
  lookup : ∀ (k : κ) (i : Nat), cc.tab.lookup k = some i → cc'.tab.lookup k = some i
  terms : ∀ (i : Nat) (s : τ), cc.terms[i]? = some s → cc'.terms[i]? = some s
  roots : ∀ k s, RootOf cc'.rep k s ↔ RootOf cc.rep k s

/-- The node of a term, and its representative. -/
structure Found (key : τ → κ) (cc : NodeStore τ κ) (t : τ) (n r : Nat) : Prop where
  lookup : cc.tab.lookup (key t) = some n
  root : RootOf cc.rep n r
  bound : r < cc.nodes.length

theorem Extends.found {cc cc' : NodeStore τ κ} (h : Extends cc cc') {t : τ} {n r : Nat}
    (found : Found key cc t n r) : Found key cc' t n r := by
  refine ⟨h.lookup _ _ found.lookup, (h.roots n r).mpr found.root, ?_⟩
  have here := List.getElem?_eq_getElem (length_terms cc ▸ found.bound)
  exact length_terms cc' ▸ (List.getElem?_eq_some_iff.mp (h.terms r _ here)).1

theorem getRepNode_spec (inv : Inv key orderKey cc u) (t : τ) :
    ∃ n r cc', cc.getRepNode key t = some (r, cc') ∧ Inv key orderKey cc' u ∧ Extends cc cc' ∧
      Found key cc' t n r := by
  obtain ⟨n, cc₁, registered, inv₁, bound, lookup, rep, pushes, keepTab, _, keepTerms⟩ :=
    register_spec inv t
  obtain ⟨r, cc', run, path, boundR, inv', same, roots⟩ := getRep_spec inv₁ bound
  refine ⟨n, r, cc', by rw [getRepNode, registered]; exact run, inv', ⟨?_, ?_, ?_⟩, ?_, ?_, ?_⟩
  · intro k i found
    rw [same.tab]
    exact keepTab k i found
  · intro i s found
    rw [same.terms]
    exact keepTerms i s found
  · intro k s
    rw [roots, rep]
  · rw [same.tab]
    exact lookup
  · exact (roots n r).mpr path
  · rw [same.length]
    exact boundR

theorem find_spec (inv : Inv key orderKey cc u) (t : τ) :
    ∃ n r x cc', cc.find key t = some (x, cc') ∧ Inv key orderKey cc' u ∧ Extends cc cc' ∧
      Found key cc' t n r ∧ cc'.terms[r]? = some x := by
  obtain ⟨n, r, cc', run, inv', extend, found⟩ := getRepNode_spec inv t
  have bound := found.bound
  refine ⟨n, r, cc'.nodes[r].term, cc', ?_, inv', extend, found, ?_⟩
  · rw [find, run]
    simp [List.getElem?_eq_getElem bound]
  · simp [terms, List.getElem?_eq_getElem bound]

/-- What finding two terms, one after the other, tells about them. -/
theorem find_eq_iff (inv : Inv key orderKey cc u) (a b : τ) :
    ∃ x y cc₁ cc₂, cc.find key a = some (x, cc₁) ∧ cc₁.find key b = some (y, cc₂) ∧
      (x = y ↔ Joined key u.current a b) := by
  obtain ⟨n, r, x, cc₁, run, inv₁, _, found, here⟩ := find_spec inv a
  obtain ⟨n', r', y, cc₂, run', inv₂, extend, found', here'⟩ := find_spec inv₁ b
  have found := extend.found found
  have here := extend.terms r x here
  refine ⟨x, y, cc₁, cc₂, run, run', ?_⟩
  rw [inv₂.good.joined_iff]
  constructor
  · rintro rfl
    obtain rfl := inv₂.good.index_unique here here' rfl
    exact .inr ⟨n, n', r, found.lookup, found'.lookup, found.root, found'.root⟩
  · intro same
    have roots : r = r' := by
      obtain same | ⟨i, j, t, hi, hj, pi, pj⟩ := same
      · have lookup := found.lookup
        rw [same, found'.lookup] at lookup
        cases lookup
        exact found.root.unique found'.root
      · rw [found.lookup] at hi
        rw [found'.lookup] at hj
        cases hi
        cases hj
        exact (found.root.unique pi).trans (pj.unique found'.root)
    rw [roots, here'] at here
    cases here
    rfl

/-- The found term is in the class, and no term that the store holds for the class is smaller. -/
theorem find_least (inv : Inv key orderKey cc u) (a : τ) :
    ∃ x cc', cc.find key a = some (x, cc') ∧ x ∈ cc'.terms ∧ Joined key u.current a x ∧
      ∀ s, Joined key u.current a s → ∃ s' ∈ cc'.terms, key s' = key s ∧ orderKey x ≤ orderKey s' := by
  obtain ⟨n, r, x, cc', run, inv', _, found, here⟩ := find_spec inv a
  obtain ⟨a', there, keyA⟩ := (inv'.good.registered _ n).mp found.lookup
  obtain ⟨x', here', _, joined⟩ := inv'.good.root found.root there
  rw [here] at here'
  cases here'
  refine ⟨x, cc', run, List.mem_of_getElem? here, (Joined.of_key keyA.symm).trans joined, ?_⟩
  intro s class_
  obtain ⟨j, lookup, path⟩ : ∃ j, cc'.tab.lookup (key s) = some j ∧ RootOf cc'.rep j r := by
    obtain same | ⟨i, j, t, hi, hj, pi, pj⟩ := inv'.good.joined_iff.mp class_
    · exact ⟨n, same ▸ found.lookup, found.root⟩
    · rw [found.lookup] at hi
      cases hi
      exact ⟨j, hj, found.root.unique pi ▸ pj⟩
  obtain ⟨s', held, keyS⟩ := (inv'.good.registered _ j).mp lookup
  obtain ⟨x', here', less, _⟩ := inv'.good.root path held
  rw [here] at here'
  cases here'
  exact ⟨s', List.mem_of_getElem? held, keyS, less⟩

theorem union_spec (inv : Inv key orderKey cc u) (a b : τ) :
    ∃ changed cc', cc.union key orderKey a b = some (changed, cc') ∧
      (changed = true ↔ ¬ Joined key u.current a b) ∧
      Inv key orderKey cc' { u with current := (a, b) :: u.current } := by
  obtain ⟨n₁, r₁, cc₁, run₁, inv₁, _, found₁⟩ := getRepNode_spec inv a
  obtain ⟨n₂, r₂, cc₂, run₂, inv₂, extend, found₂⟩ := getRepNode_spec inv₁ b
  have found₁ := extend.found found₁
  have bound₁ := found₁.bound
  have bound₂ := found₂.bound
  have iff : Joined key u.current a b ↔ r₁ = r₂ := by
    rw [inv₂.good.joined_iff]
    constructor
    · rintro (same | ⟨i, j, t, hi, hj, pi, pj⟩)
      · have lookup := found₁.lookup
        rw [same, found₂.lookup] at lookup
        cases lookup
        exact found₁.root.unique found₂.root
      · rw [found₁.lookup] at hi
        rw [found₂.lookup] at hj
        cases hi
        cases hj
        exact (found₁.root.unique pi).trans (pj.unique found₂.root)
    · rintro rfl
      exact .inr ⟨n₁, n₂, r₁, found₁.lookup, found₂.lookup, found₁.root, found₂.root⟩
  have fst : cc₂.terms[r₁]? = some cc₂.nodes[r₁].term := by
    simp [terms, List.getElem?_eq_getElem bound₁]
  have snd : cc₂.terms[r₂]? = some cc₂.nodes[r₂].term := by
    simp [terms, List.getElem?_eq_getElem bound₂]
  have result : cc.union key orderKey a b = if r₁ = r₂ then some (false, cc₂)
      else if orderKey cc₂.nodes[r₁].term < orderKey cc₂.nodes[r₂].term then
        some (true, cc₂.setRep r₂ r₁) else some (true, cc₂.setRep r₁ r₂) := by
    simp only [union, run₁, run₂, Option.bind_eq_bind, Option.bind_some,
      List.getElem?_eq_getElem bound₁, List.getElem?_eq_getElem bound₂]
    rfl
  rw [result, iff]
  split
  · rename_i same
    refine ⟨false, cc₂, rfl, by simp [same], ?_, inv₂.stacked, inv₂.within⟩
    refine inv₂.good.absorb (List.subset_cons_self _ _) fun s t mem => ?_
    obtain eq | old := List.mem_cons.mp mem
    · cases eq
      exact .inr ⟨n₁, n₂, r₁, found₁.lookup, found₂.lookup, found₁.root, same ▸ found₂.root⟩
    · exact .inl old
  · rename_i ne
    have pair : Joined key ((a, b) :: u.current) a b :=
      Relation.EqvGen.rel _ _ (.inr List.mem_cons_self)
    obtain ⟨a', hereA, keyA⟩ := (inv₂.good.registered _ _).mp found₁.lookup
    obtain ⟨b', hereB, keyB⟩ := (inv₂.good.registered _ _).mp found₂.lookup
    obtain ⟨s, hs, _, joinA⟩ := inv₂.good.root found₁.root hereA
    obtain ⟨t, ht, _, joinB⟩ := inv₂.good.root found₂.root hereB
    have joined : Joined key ((a, b) :: u.current) s t := by
      have left := (Joined.of_key keyA.symm).trans (joinA.mono (List.subset_cons_self (a, b) _))
      have right := (Joined.of_key keyB.symm).trans (joinB.mono (List.subset_cons_self (a, b) _))
      exact left.symm.trans (pair.trans right)
    obtain rfl := Option.some.inj (fst.symm.trans hs)
    obtain rfl := Option.some.inj (snd.symm.trans ht)
    have sub := List.subset_cons_self (a, b) u.current
    split
    · rename_i less
      obtain ⟨rep, same, stacked, within⟩ := setRep_spec bound₂ r₁ inv₂.stacked inv₂.within
      refine ⟨true, _, rfl, by simp [ne], ?_, ?_, ?_⟩
      · rw [same.tab, same.terms, rep]
        refine inv₂.good.link snd fst found₂.root.root found₁.root.root (Ne.symm ne) less.le sub
          joined.symm fun s t mem => ?_
        obtain eq | old := List.mem_cons.mp mem
        · cases eq
          exact .inr ⟨n₁, n₂, found₁.lookup, found₂.lookup, .inr ⟨found₁.root, found₂.root⟩⟩
        · exact .inl old
      · rw [same.tab, same.terms, same.pushes]
        exact stacked
      · rw [same.length]
        exact within
    · rename_i not
      obtain ⟨rep, same, stacked, within⟩ := setRep_spec bound₁ r₂ inv₂.stacked inv₂.within
      refine ⟨true, _, rfl, by simp [ne], ?_, ?_, ?_⟩
      · rw [same.tab, same.terms, rep]
        refine inv₂.good.link fst snd found₁.root.root found₂.root.root ne (not_lt.mp not) sub
          joined fun s t mem => ?_
        obtain eq | old := List.mem_cons.mp mem
        · cases eq
          exact .inr ⟨n₁, n₂, found₁.lookup, found₂.lookup, .inl ⟨found₁.root, found₂.root⟩⟩
        · exact .inl old
      · rw [same.tab, same.terms, same.pushes]
        exact stacked
      · rw [same.length]
        exact within

theorem theory_spec (order : List Nat) (inv : Inv key orderKey cc u)
    (inside : ∀ n ∈ order, n < cc.nodes.length) :
    ∃ result cc', theory order cc = some (result, cc') ∧ Inv key orderKey cc' u := by
  induction order generalizing cc with
  | nil => exact ⟨[], cc, rfl, inv⟩
  | cons n order ih =>
    obtain ⟨here, inside⟩ := List.forall_mem_cons.mp inside
    obtain ⟨r, cc₁, run, _, bound, inv₁, same, _⟩ := getRep_spec inv here
    obtain ⟨result, cc', rest, inv'⟩ := ih inv₁ (by rwa [same.length])
    have here : n < cc₁.nodes.length := by rwa [same.length]
    have bound : r < cc₁.nodes.length := by rwa [same.length]
    exact ⟨if n = r then result else (cc₁.nodes[n].term, cc₁.nodes[r].term) :: result, cc', by simp [theory, run, rest, List.getElem?_eq_getElem here,
      List.getElem?_eq_getElem bound], inv'⟩

theorem push_spec (inv : Inv key orderKey cc u) : Inv key orderKey cc.push (u.step .push) where
  good := inv.good
  stacked := by
    refine ⟨le_rfl, ?_, ?_⟩
    · show Good key orderKey u.current cc.tab cc.terms (restore cc.trail.length cc.trail cc.rep)
      rw [restore_self]
      exact inv.good
    · show Stacked key orderKey cc.tab cc.terms cc.pushes u.saved
        (cc.trail.drop (cc.trail.length - cc.trail.length)) (restore cc.trail.length cc.trail cc.rep)
      rw [restore_self, Nat.sub_self, List.drop_zero]
      exact inv.stacked
  within := inv.within

omit [DecidableEq κ] in
theorem undoTo_spec (newLen : Nat) (trail : List (Nat × Option Nat)) (cc : NodeStore τ κ)
    (within : ∀ p ∈ trail, p.1 < cc.nodes.length) :
    (undoTo newLen trail cc).rep = restore newLen trail cc.rep ∧ SameTerms cc (undoTo newLen trail cc) ∧
      (undoTo newLen trail cc).trail = trail.drop (trail.length - newLen) := by
  induction trail generalizing cc with
  | nil => exact ⟨rfl, ⟨rfl, rfl, rfl, rfl⟩, by simp [undoTo]⟩
  | cons change trail ih =>
    obtain ⟨n, old⟩ := change
    obtain ⟨here, within⟩ := List.forall_mem_cons.mp within
    unfold undoTo restore
    split
    · rename_i less
      obtain ⟨rep, same, drop⟩ := ih (cc.assign n old) (by simpa [assign] using within)
      have assigned : SameTerms cc (cc.assign n old) :=
        ⟨rfl, terms_assign cc n old, by simp [assign], rfl⟩
      refine ⟨by rw [rep, rep_assign here], assigned.trans same, ?_⟩
      rw [drop, List.length_cons, Nat.succ_sub less, List.drop_succ_cons]
    · rename_i more
      have all : trail.length + 1 - newLen = 0 := by omega
      exact ⟨rfl, ⟨rfl, rfl, rfl, rfl⟩, by simp [all]⟩

theorem pop_spec (inv : Inv key orderKey cc u) : Inv key orderKey cc.pop (u.step .pop) := by
  have stacked := inv.stacked
  unfold pop Unions.step
  match pushes : cc.pushes, saved : u.saved with
  | [], [] => exact inv
  | [], _ :: _ => rw [pushes, saved] at stacked; exact stacked.elim
  | _ :: _, [] => rw [pushes, saved] at stacked; exact stacked.elim
  | newLen :: rest, live :: more =>
    rw [pushes, saved] at stacked
    obtain ⟨_, good, stacked⟩ := stacked
    obtain ⟨rep, same, trail⟩ := undoTo_spec newLen cc.trail { cc with pushes := rest } inv.within
    refine ⟨?_, ?_, ?_⟩
    · rw [same.tab, same.terms, rep]
      exact good
    · rw [same.tab, same.terms, same.pushes, rep, trail]
      exact stacked
    · rw [same.length, trail]
      exact fun p mem => inv.within p (List.mem_of_mem_drop mem)

theorem new_inv : Inv key orderKey (new : NodeStore τ κ) ⟨[], []⟩ where
  good := ⟨by simp [new, terms], ⟨fun _ => 0, nofun⟩, nofun, nofun⟩
  stacked := trivial
  within := nofun

theorem step_spec (inv : Inv key orderKey cc u) (op : Op τ) :
    ∃ cc', cc.step key orderKey op = some cc' ∧ Inv key orderKey cc' (u.step op) := by
  cases op with
  | find term =>
    obtain ⟨_, _, _, cc', run, inv', _⟩ := find_spec inv term
    exact ⟨cc', by rw [step, run]; rfl, inv'⟩
  | union term1 term2 =>
    obtain ⟨_, cc', run, _, inv'⟩ := union_spec inv term1 term2
    exact ⟨cc', by rw [step, run]; rfl, inv'⟩
  | theory order =>
    obtain ⟨_, cc', run, inv'⟩ := theory_spec (order.filter (· < cc.nodes.length)) inv
      fun n mem => by simpa using (List.mem_filter.mp mem).2
    exact ⟨cc', by rw [step, run]; rfl, inv'⟩
  | push => exact ⟨_, rfl, push_spec inv⟩
  | pop => exact ⟨_, rfl, pop_spec inv⟩

/-- Every run goes through, to a store for the unions that are not undone. -/
theorem run_spec (script : List (Op τ)) :
    ∃ cc, run key orderKey script = some cc ∧ Inv key orderKey cc (Unions.run script) := by
  unfold run Unions.run
  suffices h : ∀ (cc : NodeStore τ κ) u, Inv key orderKey cc u → ∃ cc',
      script.foldlM (step key orderKey) cc = some cc' ∧ Inv key orderKey cc' (script.foldl Unions.step u) from
    h new _ new_inv
  induction script with
  | nil => exact fun cc u inv => ⟨cc, rfl, inv⟩
  | cons op script ih =>
    intro cc u inv
    obtain ⟨cc₁, step, inv₁⟩ := step_spec inv op
    rw [List.foldlM_cons, step]
    exact ih cc₁ _ inv₁

end Goivy.NodeStore
