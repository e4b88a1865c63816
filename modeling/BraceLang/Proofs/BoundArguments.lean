import BraceLang.Analysis.CallTypes
import BraceLang.Proofs.DeclaredScopes

/-!
# Types bound by arguments

Arguments are fitted to parameters one after the other, and a type parameter takes the type of the first argument that
meets it.
-/

namespace BraceLang

open List NameMap

theorem NameMap.get?_concat {α : Type} (name other : String) (value : α) (m : NameMap α) :
    get? (m ++ [(name, value)]) other = (get? m other).or (if other = name then some value else none) := by
  rw [get?, get?, lookup_append, lookup_cons, lookup_nil]
  by_cases hname : other = name
  · simp [hname]
  · rw [if_neg hname, beq_false_of_ne hname]

theorem NameMap.put_of_get?_eq_none {α : Type} {m : NameMap α} (h : get? m name = none) (value : α) :
    put name value m = m ++ [(name, value)] := by
  induction m with
  | nil => rfl
  | cons e m ih =>
    rw [get?, lookup_eq_none_iff] at h ih
    obtain ⟨hkey, hrest⟩ := forall_mem_cons.1 h
    have hne : e.1 ≠ name := fun he => by simp [he] at hkey
    rw [put, if_neg hne, ih hrest, cons_append]

namespace SymbolTable

variable {args params : List (Option String)}

/-- A choice of types for type parameters that respects bindings. -/
def Respects (s : String → Option String) (known : Bindings) : Prop :=
  ∀ p a, get? known p = some a → s p = some a

variable (t : SymbolTable) (typeParams : List String)

/-- With the chosen types, an argument of the first type may be passed for a parameter of the second. -/
def Suits (s : String → Option String) (arg param : String) : Prop :=
  if param ∈ typeParams then s param = some arg else t.isAssignable arg param = true

/-- With the chosen types, every argument of a known type may be passed for the parameter at its position. -/
def SuitsAll (s : String → Option String) (args params : List (Option String)) : Prop :=
  ∀ a p, (some a, some p) ∈ args.zip params → t.Suits typeParams s a p

def Settled (s : String → Option String) (pairs : List (Option String × Option String)) : Prop :=
  ∀ e ∈ pairs, ∃ a p, e = (some a, some p) ∧ t.Suits typeParams s a p

variable {t typeParams} {known all : Bindings} {s : String → Option String}
  {pairs : List (Option String × Option String)}

theorem Suits.mono (h : t.Suits typeParams s a p)
    (hs : ∀ p a, s p = some a → s' p = some a) : t.Suits typeParams s' a p := by
  unfold Suits at h ⊢
  split
  · next hparam => exact hs p a (by rwa [if_pos hparam] at h)
  · next hparam => rwa [if_neg hparam] at h

theorem respects_append (known new : Bindings) : Respects (get? (known ++ new)) known := by
  intro p a h
  rw [get?] at h ⊢
  rw [lookup_append, h, Option.some_or]

theorem bindAll_cons :
    t.bindAll typeParams known (e :: pairs) = some all ↔ ∃ a p, e = (some a, some p) ∧
      (t.Suits typeParams (get? known) a p ∧ t.bindAll typeParams known pairs = some all ∨
        p ∈ typeParams ∧ get? known p = none ∧ t.bindAll typeParams (known ++ [(p, a)]) pairs = some all) := by
  obtain ⟨_ | a, _ | p⟩ := e
  · simp [bindAll]
  · simp [bindAll]
  · simp [bindAll]
  · simp only [bindAll, Suits, Prod.mk.injEq, Option.some.injEq, and_assoc]
    by_cases hparam : p ∈ typeParams
    · cases hp : get? known p with
      | none => simp [hparam, hp, put_of_get?_eq_none hp]
      | some b => by_cases hb : b = a <;> simp [hparam, hp, hb]
    · by_cases ha : t.isAssignable a p <;> simp [hparam, ha]

theorem bindAll_eq_some (h : t.bindAll typeParams known pairs = some all) :
    ∃ new, all = known ++ new ∧ Settled t typeParams (get? all) pairs ∧ (new.map Prod.fst).Nodup ∧
      ∀ p, p ∈ new.map Prod.fst ↔ p ∈ typeParams ∧ some p ∈ pairs.map Prod.snd ∧ p ∉ known.map Prod.fst := by
  induction pairs generalizing known with
  | nil =>
    cases h
    exact ⟨[], (append_nil _).symm, forall_mem_nil _, nodup_nil, by simp⟩
  | cons e pairs ih =>
    obtain ⟨a, p, rfl, ⟨hsuits, hrest⟩ | ⟨hparam, hnone, hrest⟩⟩ := bindAll_cons.1 h
    · obtain ⟨new, rfl, hsettled, hnodup, hnew⟩ := ih hrest
      have hknown : p ∈ typeParams → p ∈ known.map Prod.fst := by
        intro hparam
        rw [Suits, if_pos hparam] at hsuits
        exact has_iff_mem_map_fst.1 (by rw [has, hsuits, Option.isSome_some])
      refine ⟨new, rfl, forall_mem_cons.2 ⟨⟨a, p, rfl, ?_⟩, hsettled⟩, hnodup, fun q => ?_⟩
      · exact hsuits.mono (respects_append known new)
      · grind
    · obtain ⟨new, rfl, hsettled, hnodup, hnew⟩ := ih hrest
      have hfresh : p ∉ known.map Prod.fst := by
        rw [← has_iff_mem_map_fst, has, hnone]
        simp
      refine ⟨(p, a) :: new, by simp, forall_mem_cons.2 ⟨⟨a, p, rfl, ?_⟩, hsettled⟩, ?_, fun q => ?_⟩
      · rw [Suits, if_pos hparam]
        refine respects_append (known ++ [(p, a)]) new p a ?_
        rw [get?_concat, hnone, if_pos rfl, Option.none_or]
      · exact nodup_cons.2 ⟨by simp [hnew], hnodup⟩
      · grind

/-- If a choice that respects the bindings suits all arguments, they fit, and the choice respects what is bound. -/
theorem exists_bindAll (hknown : Respects s known) (hpairs : Settled t typeParams s pairs) :
    ∃ all, t.bindAll typeParams known pairs = some all ∧ Respects s all := by
  induction pairs generalizing known with
  | nil => exact ⟨known, rfl, hknown⟩
  | cons e pairs ih =>
    obtain ⟨⟨a, p, rfl, hsuits⟩, hrest⟩ := forall_mem_cons.1 hpairs
    by_cases hnew : p ∈ typeParams ∧ get? known p = none
    · have hs : s p = some a := by rwa [Suits, if_pos hnew.1] at hsuits
      have hmore : Respects s (known ++ [(p, a)]) := by
        intro q b hq
        rw [get?_concat, Option.or_eq_some_iff] at hq
        rcases hq with hq | ⟨-, hq⟩
        · exact hknown q b hq
        · obtain ⟨rfl, hab⟩ := Option.ite_none_right_eq_some.1 hq
          exact hs.trans hab
      obtain ⟨all, hall, hrespects⟩ := ih hmore hrest
      exact ⟨all, bindAll_cons.2 ⟨a, p, rfl, .inr ⟨hnew.1, hnew.2, hall⟩⟩, hrespects⟩
    · have hbound : t.Suits typeParams (get? known) a p := by
        unfold Suits at hsuits ⊢
        split
        · next hparam =>
          obtain ⟨b, hb⟩ := Option.ne_none_iff_exists'.1 fun hnone => hnew ⟨hparam, hnone⟩
          rw [hb, ← hknown p b hb]
          rwa [if_pos hparam] at hsuits
        · next hparam => rwa [if_neg hparam] at hsuits
      obtain ⟨all, hall, hrespects⟩ := ih hknown hrest
      exact ⟨all, bindAll_cons.2 ⟨a, p, rfl, .inl ⟨hbound, hall⟩⟩, hrespects⟩

theorem settled_zip_iff (hlength : args.length = params.length) :
    Settled t typeParams s (args.zip params) ↔ (∀ a ∈ args, a.isSome) ∧ (∀ p ∈ params, p.isSome) ∧
      t.SuitsAll typeParams s args params := by
  induction args generalizing params with
  | nil =>
    cases length_eq_zero_iff.1 hlength.symm
    simp [Settled, SuitsAll]
  | cons a args ih =>
    obtain ⟨p, params, rfl⟩ := exists_cons_of_length_eq_add_one hlength.symm
    have ih := ih (Nat.succ.inj hlength)
    unfold Settled SuitsAll at ih ⊢
    cases a <;> cases p <;> simp_all [and_assoc, and_left_comm, or_imp, forall_and]

theorem bindArguments_eq_some_iff :
    t.bindArguments typeParams known args params = some new ↔
      args.length = params.length ∧ t.bindAll typeParams known (args.zip params) = some (known ++ new) := by
  have hfilter {new : Bindings} (hall : t.bindAll typeParams known (args.zip params) = some (known ++ new)) :
      (known ++ new).filter (fun b => !has known b.1) = new := by
    obtain ⟨new', heq, -, -, hnew⟩ := bindAll_eq_some hall
    cases append_cancel_left heq
    have hold : known.filter (fun b => !has known b.1) = [] := by
      simp only [filter_eq_nil_iff, Bool.not_eq_true', Bool.not_eq_false, has_iff_mem_map_fst]
      exact fun b hb => mem_map_of_mem hb
    have hfresh : ∀ b ∈ new, (!has known b.1) := by
      intro b hb
      rw [Bool.not_eq_true', ← Bool.not_eq_true, has_iff_mem_map_fst]
      exact ((hnew b.1).1 (mem_map_of_mem hb)).2.2
    rw [filter_append, hold, nil_append, filter_eq_self.2 hfresh]
  rw [bindArguments]
  split
  · next hlength =>
    rw [Option.map_eq_some_iff]
    constructor
    · rintro ⟨all, hall, hnew⟩
      obtain ⟨new, rfl, -⟩ := bindAll_eq_some hall
      rw [hfilter hall] at hnew
      exact ⟨hlength, hnew ▸ hall⟩
    · exact fun h => ⟨_, h.2, hfilter h.2⟩
  · next hlength => simp [hlength]

theorem exists_bindArguments_iff :
    (∃ new, t.bindArguments typeParams known args params = some new) ↔
      args.length = params.length ∧ (∀ a ∈ args, a.isSome) ∧ (∀ p ∈ params, p.isSome) ∧
        ∃ s, Respects s known ∧ t.SuitsAll typeParams s args params := by
  simp only [bindArguments_eq_some_iff]
  constructor
  · rintro ⟨new, hlength, hall⟩
    obtain ⟨_, -, hsettled, -⟩ := bindAll_eq_some hall
    obtain ⟨hargs, hparams, hsuits⟩ := (settled_zip_iff hlength).1 hsettled
    exact ⟨hlength, hargs, hparams, _, respects_append known new, hsuits⟩
  · rintro ⟨hlength, hargs, hparams, s, hknown, hsuits⟩
    obtain ⟨all, hall, -⟩ := exists_bindAll hknown ((settled_zip_iff hlength).2 ⟨hargs, hparams, hsuits⟩)
    obtain ⟨new, rfl, -⟩ := bindAll_eq_some hall
    exact ⟨new, hlength, hall⟩

/-- Arguments fit parameters just if all types are known and some choice of types for the type parameters, one that
respects the known bindings, suits every position.  Then the new bindings are those of the type parameters that occur
and were not bound, and with them the known bindings are the least such choice. -/
theorem bindArguments_exact (t : SymbolTable) (typeParams : List String) (known : Bindings)
    (args params : List (Option String)) :
    ((∃ new, t.bindArguments typeParams known args params = some new) ↔
      args.length = params.length ∧ (∀ a ∈ args, a.isSome) ∧ (∀ p ∈ params, p.isSome) ∧
        ∃ s, Respects s known ∧ t.SuitsAll typeParams s args params) ∧
    ∀ new, t.bindArguments typeParams known args params = some new →
      (new.map Prod.fst).Nodup ∧
      (∀ p, has new p ↔ p ∈ typeParams ∧ some p ∈ params ∧ ¬ has known p) ∧
      Respects (get? (known ++ new)) known ∧
      t.SuitsAll typeParams (get? (known ++ new)) args params ∧
      ∀ s, Respects s known → t.SuitsAll typeParams s args params → Respects s (known ++ new) := by
  refine ⟨exists_bindArguments_iff, fun new hbound => ?_⟩
  obtain ⟨hlength, hall⟩ := bindArguments_eq_some_iff.1 hbound
  obtain ⟨new', heq, hsettled, hnodup, hnew⟩ := bindAll_eq_some hall
  cases List.append_cancel_left heq
  obtain ⟨hargs, hparams, hsuits⟩ := (settled_zip_iff hlength).1 hsettled
  refine ⟨hnodup, fun p => ?_, respects_append known new, hsuits, fun s hknown hs => ?_⟩
  · simp only [has_iff_mem_map_fst, hnew, List.map_snd_zip (Nat.le_of_eq hlength.symm)]
  · obtain ⟨all, hall', hrespects⟩ := exists_bindAll hknown ((settled_zip_iff hlength).2 ⟨hargs, hparams, hs⟩)
    cases hall.symm.trans hall'
    exact hrespects

/-- A box whose type parameter is bound by its first argument, once with nothing known and once with another type. -/
theorem bindArguments_exact_box : ({} : SymbolTable).bindArguments ["T"] [] [some "int", some "int"]
    [some "T", some "T"] =
      some [("T", "int")] ∧
    ¬ ∃ s, Respects s [("T", "str")] ∧ ({} : SymbolTable).SuitsAll ["T"] s [some "int"] [some "T"] := by
  refine ⟨by decide, fun h => ?_⟩
  obtain ⟨new, hnew⟩ := (bindArguments_exact {} ["T"] [("T", "str")] [some "int"] [some "T"]).1.2
    ⟨rfl, by decide, by decide, h⟩
  cases hnew

end SymbolTable

end BraceLang
