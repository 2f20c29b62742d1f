import Goivy.Util.Renamer

/-! The vocabularies that symbol names belong to, and structures that are changed
on a set of symbols only. -/
namespace Goivy

/-- `IsSkolem`: the name contains two underscores in a row. -/
def isSkolem (name : String) : Bool := ['_', '_'] <:+: name.toList

def Const.Skolem (c : Const) : Prop := isSkolem c.name = true

/-- `IsGlobalSkolem`: names of the form `__X...`, constants over time. -/
def isGlobalSkolem (name : String) : Bool :=
  ['_', '_'].isPrefixOf name.toList && name.toList[2]?.any Char.isUpper

/-- `IsNew`. -/
def isNew (name : String) : Bool := "new_".toList <+: name.toList

/-- `ActionNewName`. -/
def actionNewName (name : String) : String := "new_" ++ name

/-- `NewOf`. -/
def newOf (name : String) : String :=
  if isNew name then String.ofList (name.toList.drop 4) else name

/-- `NewActionConst`. -/
def newActionConst (c : Const) : Const := ⟨actionNewName c.name, c.sort⟩

theorem isSkolem_append {a b : String} (h : isSkolem a = true) (c : String) :
    isSkolem (c ++ a ++ b) = true := by
  simp only [isSkolem, decide_eq_true_eq, String.toList_append] at h ⊢
  exact h.trans ⟨c.toList, b.toList, rfl⟩

theorem isSkolem_append_right {a : String} (h : isSkolem a = true) (b : String) :
    isSkolem (a ++ b) = true := by
  simpa using isSkolem_append (b := b) h ""

theorem isSkolem_append_left {a : String} (h : isSkolem a = true) (b : String) :
    isSkolem (b ++ a) = true := by
  simpa using isSkolem_append (b := "") h b

theorem isSkolem_of_isGlobalSkolem {name : String} (h : isGlobalSkolem name = true) :
    isSkolem name = true := by
  simp only [isGlobalSkolem, Bool.and_eq_true, List.isPrefixOf_iff_prefix] at h
  exact decide_eq_true h.1.isInfix

theorem BasedOn.isSkolem {base name : String} (h : BasedOn base name)
    (hs : isSkolem base = true) : isSkolem name = true := by
  obtain rfl | ⟨t, rfl⟩ := h
  · exact hs
  · exact isSkolem_append_right (isSkolem_append_right hs "_") t

theorem BasedOn.not_isGlobalSkolem {base name : String} (h : BasedOn base name)
    (hs : Goivy.isSkolem base = true) (hg : isGlobalSkolem base = false) :
    isGlobalSkolem name = false := by
  obtain rfl | ⟨t, rfl⟩ := h
  · exact hg
  · simp only [isGlobalSkolem, Goivy.isSkolem, decide_eq_true_eq, String.toList_append] at hs hg ⊢
    match hb : base.toList with
    | [] => simp [hb] at hs
    | [a] => simp [hb, List.infix_cons_iff] at hs
    | [a, b] => simp
    | a :: b :: c :: rest =>
      rw [hb] at hg
      simpa using hg

theorem isNew_actionNewName (name : String) : isNew (actionNewName name) = true := by
  simp [isNew, actionNewName, String.toList_append]

theorem newOf_actionNewName (name : String) : newOf (actionNewName name) = name := by
  rw [newOf, if_pos (isNew_actionNewName name), actionNewName, String.toList_append]
  exact String.ofList_toList

theorem actionNewName_newOf {name : String} (h : isNew name = true) :
    actionNewName (newOf name) = name := by
  obtain ⟨t, ht⟩ : "new_".toList <+: name.toList := by simpa [isNew] using h
  refine String.toList_inj.mp ?_
  rw [newOf, if_pos h, actionNewName, String.toList_append, ← ht]
  simp

theorem actionNewName_injective : Function.Injective actionNewName := fun _ _ h =>
  (String.append_right_inj _).mp h

variable {D : Domain}

open Classical in
/-- The structure that is `N` on the symbols of `S` and `M` elsewhere. -/
noncomputable def Structure.patch (S : Set Const) (N M : Structure D) : Structure D :=
  fun n s => if ⟨n, s⟩ ∈ S then N n s else M n s

theorem Structure.patch_mem {S : Set Const} {N M : Structure D} {c : Const} (h : c ∈ S) :
    SameAt (patch S N M) N c := if_pos h

theorem Structure.patch_not_mem {S : Set Const} {N M : Structure D} {c : Const} (h : c ∉ S) :
    SameAt (patch S N M) M c := if_neg h

open Classical in
/-- The structure in which the new names of the symbols of `S` mean what the old
names mean in `N`. -/
noncomputable def Structure.push (ρ : Renaming) (S : Set Const) (N M : Structure D) :
    Structure D :=
  fun n s => if h : ∃ m, (⟨m, s⟩ : Const) ∈ S ∧ ρ.name ⟨m, s⟩ = n then N h.choose s else M n s

theorem Structure.push_image {ρ : Renaming} {S : Set Const} {N M : Structure D} {c : Const}
    (distinct : ∀ d ∈ S, ρ.const c = ρ.const d → c = d) (hc : c ∈ S) :
    SameAt ((push ρ S N M).comap ρ) N c := by
  have h : ∃ m, (⟨m, c.sort⟩ : Const) ∈ S ∧ ρ.name ⟨m, c.sort⟩ = ρ.name c := ⟨c.name, hc, rfl⟩
  have same := distinct _ h.choose_spec.1 (congrArg (Const.mk · c.sort) h.choose_spec.2.symm)
  have name : h.choose = c.name := (congrArg Const.name same).symm
  show push ρ S N M (ρ.name c) c.sort = N c.name c.sort
  rw [push, dif_pos h, name]

theorem Structure.push_off {ρ : Renaming} {S : Set Const} {N M : Structure D} {c : Const}
    (off : ∀ d ∈ S, ρ.const d ≠ c) : SameAt (push ρ S N M) M c :=
  dif_neg fun ⟨_, hm, same⟩ => off _ hm (congrArg (Const.mk · c.sort) same)

/-- `N` differs from `M` on symbols of one kind only. -/
def AgreeOff (P : Const → Prop) (M N : Structure D) : Prop := ∀ c, ¬ P c → SameAt M N c

theorem AgreeOff.refl (P : Const → Prop) (M : Structure D) : AgreeOff P M M := fun _ _ => rfl

theorem AgreeOff.symm {P : Const → Prop} {M N : Structure D} (h : AgreeOff P M N) :
    AgreeOff P N M := fun c hc => (h c hc).symm

theorem AgreeOff.trans {P : Const → Prop} {M N O : Structure D} (h : AgreeOff P M N)
    (h' : AgreeOff P N O) : AgreeOff P M O := fun c hc => (h c hc).trans (h' c hc)

open Classical in
/-- The structure in which `c` means `f`, where that has the right sort. -/
noncomputable def Structure.redefine (M : Structure D) (c : Const) (f : List (Val D) → Val D) : Structure D :=
  fun n s args => if h : (⟨n, s⟩ : Const) = c ∧ (f args.1).1 = s.range then cast (congrArg (El D) h.2) (f args.1).2 else M n s args

theorem Structure.redefine_other {M : Structure D} {c c' : Const} {f : List (Val D) → Val D} (other : c' ≠ c) :
    SameAt M (M.redefine c f) c' := by
  funext args
  have off : ¬ ((⟨c'.name, c'.sort⟩ : Const) = c ∧ (f args.1).1 = c'.sort.range) := fun h => other h.1
  rw [redefine, dif_neg off]

theorem Structure.value_redefine {M : Structure D} {c : Const} {f : List (Val D) → Val D} {vals : List (Val D)}
    (fits : vals.map Sigma.fst = c.sort.domain) (range : (f vals).1 = c.sort.range) :
    (M.redefine c f).value c vals = f vals := by
  have on : (⟨c.name, c.sort⟩ : Const) = c ∧ (f vals).1 = c.sort.range := ⟨rfl, range⟩
  rw [Structure.value_eq _ fits]
  refine Sigma.ext range.symm ?_
  show HEq (M.redefine c f c.name c.sort ⟨vals, fits⟩) (f vals).2
  unfold redefine
  rw [dif_pos on]
  exact cast_heq _ _

/-- Symbols of different names can be given any meanings of their sorts. -/
theorem exists_meanings (M : Structure D) (cs : List (Const × (List (Val D) → Val D)))
    (distinct : (cs.map fun p => p.1.name).Nodup)
    (ranges : ∀ p ∈ cs, ∀ vals, (p.2 vals).1 = p.1.sort.range) : ∃ N : Structure D,
      AgreeOff (· ∈ cs.map Prod.fst) M N ∧
        ∀ p ∈ cs, ∀ vals, vals.map Sigma.fst = p.1.sort.domain → N.value p.1 vals = p.2 vals := by
  induction cs with
  | nil => exact ⟨M, .refl _ M, by simp⟩
  | cons p cs ih =>
    obtain ⟨N, agree, values⟩ := ih distinct.of_cons fun q hq => ranges q (List.mem_cons_of_mem _ hq)
    refine ⟨N.redefine p.1 p.2, fun c hc => ?_, List.forall_mem_cons.mpr ⟨?_, fun q hq => ?_⟩⟩
    · simp only [List.map_cons, List.mem_cons, not_or] at hc
      exact (agree c hc.2).trans (Structure.redefine_other hc.1)
    · exact fun vals fits => Structure.value_redefine fits (ranges p List.mem_cons_self vals)
    · have other : q.1 ≠ p.1 := fun same =>
        (List.nodup_cons.mp distinct).1 (List.mem_map.mpr ⟨q, hq, congrArg Const.name same⟩)
      rw [← (Structure.redefine_other other).value]
      exact values q hq

/-- Constants of different names can be given any values of their sorts. -/
theorem exists_values (M : Structure D) (cs : List (Const × Val D)) (distinct : (cs.map fun p => p.1.name).Nodup)
    (fits : ∀ p ∈ cs, p.1.sort = .first p.2.1) : ∃ N : Structure D,
      AgreeOff (· ∈ cs.map Prod.fst) M N ∧ ∀ p ∈ cs, N.value p.1 [] = p.2 := by
  obtain ⟨N, agree, values⟩ := exists_meanings M (cs.map fun p => (p.1, fun _ => p.2))
    (by simpa [Function.comp_def] using distinct)
    (List.forall_mem_map.mpr fun p hp _ => by rw [fits p hp, LSort.range])
  rw [List.forall_mem_map] at values
  refine ⟨N, by simpa [Function.comp_def] using agree, fun p hp => values p hp [] ?_⟩
  rw [fits p hp]
  rfl

end Goivy
