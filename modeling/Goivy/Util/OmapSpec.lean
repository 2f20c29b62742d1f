import Goivy.Util.Omap

/-! What the ordered maps are for: a finite map listed in key order, and loops that visit the
keys present at their start. -/
namespace Goivy

variable {C K V : Type} [LinearOrder C]

namespace Entries

variable (keys : Keys C K)

def get (m : List (C × K × V)) (key : K) : Option (K × V) :=
  if keys.isNil key then none else m.lookup (keys.canon key)

/-- A key that is present stays as it was first set. -/
def set (m : List (C × K × V)) (key : K) (val : V) : Bool × List (C × K × V) :=
  if keys.isNil key then (false, m)
  else match m.lookup (keys.canon key) with
    | some (first, _) => (false, SortedEntries.put m (keys.canon key) (first, val))
    | none => (true, SortedEntries.put m (keys.canon key) (key, val))

def delkey (m : List (C × K × V)) (key : K) : Bool × List (C × K × V) :=
  if (get keys m key).isSome then (true, SortedEntries.remove m (keys.canon key)) else (false, m)

def perform (current : K) (m : List (C × K × V)) : Act K V → List (C × K × V)
  | .delete => (delkey keys m current).2
  | .update key val | .write key val => if (get keys m key).isSome then (set keys m key val).2 else m

/-- The loop over the keys `cs`: each is read when its turn comes. -/
def loop (body : Body K V) : List C → List (C × K × V) → List (K × V) →
    List (C × K × V) × List (K × V)
  | [], m, seen => (m, seen)
  | c :: cs, m, seen => match m.lookup c with
    | none => loop body cs m seen
    | some entry =>
      let seen := seen ++ [entry]
      let m := (body seen).1.foldl (perform keys entry.1) m
      if (body seen).2 then loop body cs m seen else (m, seen)

def all (body : Body K V) (m : List (C × K × V)) : List (C × K × V) × List (K × V) :=
  loop keys body (m.map Prod.fst) m []

/-- Whether an act counts as a change of the map; a write through a pointer does not. -/
def touches (m : List (C × K × V)) : Act K V → Bool
  | .delete => true
  | .update key _ => (get keys m key).isSome
  | .write _ _ => false

def deletes : Act K V → Bool
  | .delete => true
  | _ => false

/-- The first change of the map deletes the entry before the last one, and the body goes on. -/
def losesLast (body : Body K V) : List C → List (C × K × V) → List (K × V) → Bool
  | [], _, _ => false
  | c :: cs, m, seen => match m.lookup c with
    | none => false
    | some entry =>
      let seen := seen ++ [entry]
      let acts := (body seen).1
      (body seen).2 && if acts.any (touches keys m) then cs.length = 1 && acts.any deletes
        else losesLast body cs (acts.foldl (perform keys entry.1) m) seen

end Entries

inductive Op (K V : Type) where
  | set (key : K) (val : V)
  | delkey (key : K)
  | deleteAll
  | get2 (key : K)
  | len
  | cached
  | all (body : Body K V)
  | allokv (body : Body K V)

inductive Answer (K V : Type) where
  | done
  | flag (b : Bool)
  | value (val : Option V)
  | number (n : Nat)
  | listing (kvs : List (K × V))
  deriving DecidableEq

def Entries.step (keys : Keys C K) (m : List (C × K × V)) :
    Op K V → Answer K V × List (C × K × V)
  | .set key val => (.flag (set keys m key val).1, (set keys m key val).2)
  | .delkey key => (.flag (delkey keys m key).1, (delkey keys m key).2)
  | .deleteAll => (.done, [])
  | .get2 key => (.value ((get keys m key).map Prod.snd), m)
  | .len => (.number m.length, m)
  | .cached => (.listing (m.map Prod.snd), m)
  | .all body | .allokv body => (.listing (all keys body m).2, (all keys body m).1)

/-- The entries after some operations. -/
def Entries.final (keys : Keys C K) (script : List (Op K V)) (m : List (C × K × V)) :
    List (C × K × V) :=
  script.foldl (fun m op => (step keys m op).2) m

def Entries.run (keys : Keys C K) : List (Op K V) → List (C × K × V) → List (Answer K V)
  | [], _ => []
  | op :: ops, m => (step keys m op).1 :: run keys ops (step keys m op).2

namespace MapOps

variable {T : Rbtree C (Okv C K) Okv.id} {σ : Type} (ops : MapOps T V σ)

def step (s : σ) : Op K V → Option (Answer K V × σ)
  | .set key val => (ops.set s key val).map fun r => (.flag r.1, r.2)
  | .delkey key => some (.flag (ops.delkey s key).1.1, (ops.delkey s key).2)
  | .deleteAll => some (.done, ops.deleteAll s)
  | .get2 key => some (.value (ops.get2 s key), s)
  | .len => some (.number (ops.len s), s)
  | .cached => do
    let (kvs, s) ← ops.cached s
    return (.listing (← kvs.mapM fun kv => kv.2.map (kv.1, ·)), s)
  | .all body => (ops.all body s).map fun r => (.listing r.2, r.1)
  | .allokv body => (ops.allokv body s).map fun r => (.listing r.2, r.1)

def run : List (Op K V) → σ → Option (List (Answer K V))
  | [], _ => some []
  | op :: rest, s => do
    let (answer, s) ← ops.step s op
    return answer :: (← run rest s)

/-- The entries of a map, in the order of its tree. -/
def entries (s : σ) : List (C × K × V) :=
  (T.nodes (ops.omap s).tree).filterMap fun it =>
    (ops.omap s).vals[(T.item it).ref]?.map fun val => ((T.item it).id, (T.item it).key, val)

/-- A loop that runs on the cache and loses the last entry. -/
def Skips (keys : Keys C K) (s : σ) : Op K V → Prop
  | .all body | .allokv body => (ops.omap s).usable ∧
      Entries.losesLast keys body ((ops.entries s).map Prod.fst) (ops.entries s) []
  | _ => False

/-- No loop of the run is one that skips an entry. -/
def Clean (keys : Keys C K) : List (Op K V) → σ → Prop
  | [], _ => True
  | op :: rest, s => ¬ ops.Skips keys s op ∧
      ∀ answer s', ops.step s op = some (answer, s') → Clean keys rest s'

end MapOps

namespace Entries

variable (keys : Keys C K) (body : Body K V)

theorem loop_stays (cs : List C) (m : List (C × K × V)) (seen : List (K × V)) :
    ∃ more, (loop keys body cs m seen).2 = seen ++ more := by
  induction cs generalizing m seen with
  | nil => exact ⟨[], (List.append_nil _).symm⟩
  | cons c cs ih =>
    rw [loop]
    split
    · exact ih m seen
    · rename_i entry _
      dsimp only
      split
      · obtain ⟨more, eq⟩ := ih ((body (seen ++ [entry])).1.foldl (perform keys entry.1) m) (seen ++ [entry])
        exact ⟨entry :: more, by rw [eq, List.append_assoc]; rfl⟩
      · exact ⟨[entry], rfl⟩

/-- Entries are kept under what identifies their key. -/
def Keyed (m : List (C × K × V)) : Prop :=
  ∀ c k v, m.lookup c = some (k, v) → keys.canon k = c ∧ keys.isNil k = false

variable {keys}

theorem get_eq_some {m : List (C × K × V)} {key : K} {entry : K × V}
    (found : get keys m key = some entry) :
    keys.isNil key = false ∧ m.lookup (keys.canon key) = some entry := by
  unfold get at found
  split at found
  · cases found
  · rename_i nil
    exact ⟨by simpa using nil, found⟩

/-- An act may delete the current entry, and otherwise only changes values. -/
theorem lookup_perform {m : List (C × K × V)} (current : K) (act : Act K V) {c : C} {k : K} {v : V}
    (found : (perform keys current m act).lookup c = some (k, v)) :
    ∃ w, m.lookup c = some (k, w) := by
  have put : ∀ key val, (set keys m key val).2.lookup c = some (k, v) → (get keys m key).isSome →
      ∃ w, m.lookup c = some (k, w) := by
    intro key val found present
    obtain ⟨⟨first, w⟩, eq⟩ := Option.isSome_iff_exists.mp present
    obtain ⟨nil, eq⟩ := get_eq_some eq
    rw [set, nil, if_neg (by simp), eq] at found
    simp only [SortedEntries.lookup_put] at found
    split at found
    · rename_i same
      cases found
      exact ⟨w, same ▸ eq⟩
    · exact ⟨v, found⟩
  cases act with
  | delete =>
    rw [perform, delkey] at found
    split at found
    · rw [SortedEntries.lookup_remove] at found
      split at found
      · cases found
      · exact ⟨v, found⟩
    · exact ⟨v, found⟩
  | update key val | write key val =>
    rw [perform] at found
    split at found
    · exact put key val found ‹_›
    · exact ⟨v, found⟩

theorem isSome_perform {m : List (C × K × V)} (current : K) (act : Act K V) {c : C}
    (other : c ≠ keys.canon current) (present : (m.lookup c).isSome) :
    ((perform keys current m act).lookup c).isSome := by
  have put : ∀ key val, ((set keys m key val).2.lookup c).isSome := by
    intro key val
    unfold set
    split
    · exact present
    · split <;> simp only [SortedEntries.lookup_put] <;> split <;> simp [present]
  cases act with
  | delete =>
    rw [perform, delkey]
    split
    · rw [SortedEntries.lookup_remove, if_neg other]
      exact present
    · exact present
  | update key val | write key val =>
    rw [perform]
    split
    · exact put key val
    · exact present

/-- A loop whose body never stops visits the keys of its start once each, in their order. -/
theorem loop_visits (goes : ∀ seen, (body seen).2) {cs : List C} (nodup : cs.Nodup)
    {m : List (C × K × V)} (keyed : Keyed keys m) (present : ∀ c ∈ cs, (m.lookup c).isSome)
    (seen : List (K × V)) : (loop keys body cs m seen).2.map (fun p => keys.canon p.1) =
      seen.map (fun p => keys.canon p.1) ++ cs := by
  induction cs generalizing m seen with
  | nil => rw [loop, List.append_nil]
  | cons c cs ih =>
    obtain ⟨fresh, nodup⟩ := List.nodup_cons.mp nodup
    obtain ⟨here, rest⟩ := List.forall_mem_cons.mp present
    obtain ⟨⟨k, v⟩, found⟩ := Option.isSome_iff_exists.mp here
    obtain ⟨canon, _⟩ := keyed c k v found
    rw [loop, found]
    dsimp only
    rw [if_pos (goes _)]
    generalize (body (seen ++ [(k, v)])).1 = acts
    have after : Keyed keys (acts.foldl (perform keys k) m) ∧
        ∀ c ∈ cs, ((acts.foldl (perform keys k) m).lookup c).isSome := by
      clear found here present
      induction acts generalizing m with
      | nil => exact ⟨keyed, rest⟩
      | cons act acts more =>
        refine more (fun c' k' v' found' => ?_) fun c' mem => ?_
        · obtain ⟨w, before⟩ := lookup_perform k act found'
          exact keyed c' k' w before
        · refine isSome_perform k act (fun same => fresh ?_) (rest c' mem)
          rw [← canon, ← same]
          exact mem
    rw [ih nodup after.1 after.2, List.map_append, List.append_assoc]
    simp [canon]

/-- The entries of a map: in key order, each under what identifies its key. -/
structure Proper (keys : Keys C K) (m : List (C × K × V)) : Prop where
  sorted : SortedEntries.Sorted m
  keyed : Keyed keys m

theorem Proper.put {m : List (C × K × V)} (h : Proper keys m) {key : K}
    (nil : keys.isNil key = false) {c : C} (canon : keys.canon key = c) (val : V) :
    Proper keys (SortedEntries.put m c (key, val)) := by
  refine ⟨h.sorted.put c (key, val), fun d k v found => ?_⟩
  rw [SortedEntries.lookup_put] at found
  split at found
  · rename_i same
    cases found
    exact ⟨canon.trans same.symm, nil⟩
  · exact h.keyed d k v found

theorem Proper.set {m : List (C × K × V)} (h : Proper keys m) (key : K) (val : V) :
    Proper keys (set keys m key val).2 := by
  unfold Entries.set
  split
  · exact h
  · rename_i nil
    split
    · rename_i first _ found
      obtain ⟨canon, nil⟩ := h.keyed _ _ _ found
      exact h.put nil canon val
    · exact h.put (by simpa using nil) rfl val

theorem Proper.delkey {m : List (C × K × V)} (h : Proper keys m) (key : K) :
    Proper keys (delkey keys m key).2 := by
  unfold Entries.delkey
  split
  · refine ⟨h.sorted.remove _, fun d k v found => ?_⟩
    rw [SortedEntries.lookup_remove] at found
    split at found
    · cases found
    · exact h.keyed d k v found
  · exact h

theorem Proper.perform {m : List (C × K × V)} (h : Proper keys m) (current : K) (act : Act K V) :
    Proper keys (perform keys current m act) := by
  cases act with
  | delete => exact h.delkey current
  | update key val | write key val =>
    rw [Entries.perform]
    split
    · exact h.set key val
    · exact h

theorem Proper.loop (cs : List C) {m : List (C × K × V)} (h : Proper keys m) (seen : List (K × V)) :
    Proper keys (loop keys body cs m seen).1 := by
  induction cs generalizing m seen with
  | nil => exact h
  | cons c cs ih =>
    rw [Entries.loop]
    split
    · exact ih h seen
    · rename_i entry _
      have after : Proper keys ((body (seen ++ [entry])).1.foldl (Entries.perform keys entry.1) m) :=
        List.foldlRecOn _ _ h fun m h act _ => h.perform entry.1 act
      dsimp only
      split
      · exact ih after _
      · exact after

theorem Proper.step {m : List (C × K × V)} (h : Proper keys m) (op : Op K V) :
    Proper keys (step keys m op).2 := by
  cases op with
  | set key val => exact h.set key val
  | delkey key => exact h.delkey key
  | deleteAll => exact ⟨List.Pairwise.nil, nofun⟩
  | get2 | len | cached => exact h
  | all body | allokv body => exact h.loop body _ []

theorem final_proper (keys : Keys C K) (script : List (Op K V)) : Proper keys (final keys script []) :=
  List.foldlRecOn _ _ ⟨List.Pairwise.nil, nofun⟩ fun _ h op _ => h.step op

theorem Proper.all_visits {m : List (C × K × V)} (h : Proper keys m) (goes : ∀ seen, (body seen).2) :
    (all keys body m).2.map (fun p => keys.canon p.1) = m.map Prod.fst :=
  loop_visits body goes h.sorted.nodup h.keyed (fun _ => SortedEntries.lookup_isSome) []

end Entries

end Goivy
