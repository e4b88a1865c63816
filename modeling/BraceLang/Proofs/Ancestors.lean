import BraceLang.Symbols.Table
import Mathlib.Data.Finset.Card
import Mathlib.Logic.Relation

/-!
# Ancestors

A declaration links its name to the classes and interfaces that it extends or implements (`Extends`).
-/

namespace BraceLang.SymbolTable

open List NameMap Relation

/-- A declaration of the first name, as a class or as an interface, extends or implements the second. -/
inductive Extends (t : SymbolTable) (name base : String) : Prop
  | extended {c : ClassSymbol} {head : ClassHead} {body params annotations : List Node}
      (hc : get? t.classes name = some c) (hn : c.declaration = .classDecl head body params annotations)
      (hbase : base ∈ head.bases)
  | implemented {c : ClassSymbol} {head : ClassHead} {body params annotations : List Node}
      (hc : get? t.classes name = some c) (hn : c.declaration = .classDecl head body params annotations)
      (hbase : base ∈ head.interfaces)
  | recorded {c : ClassSymbol} {own : String} {fields body params annotations : List Node} {bases : List String}
      {p : Position} (hc : get? t.classes name = some c)
      (hn : c.declaration = .dataClass own fields body params bases annotations p) (hbase : base ∈ bases)
  | specified {i : InterfaceSymbol} {own : String} {methods : Option (List Node)} {annotations : List Node}
      {bases : List String} {p : Position} (hi : get? t.interfaces name = some i)
      (hn : i.declaration = .interface own methods bases annotations p) (hbase : base ∈ bases)

variable {t : SymbolTable} {a b : String} {seen names after : List String}

theorem mem_links_iff : b ∈ t.links a ↔ t.Extends a b := by
  constructor
  · intro h
    rcases mem_append.1 h with h | h
    · cases hc : get? t.classes a with
      | none => simp [hc] at h
      | some c =>
        rw [hc, Option.elim_some] at h
        cases hn : c.declaration with
        | classDecl =>
          rw [hn] at h
          exact (mem_append.1 h).elim (.extended hc hn) (.implemented hc hn)
        | dataClass => exact .recorded hc hn (by rwa [hn] at h)
        | _ => rw [hn] at h; cases h
    · cases hi : get? t.interfaces a with
      | none => simp [hi] at h
      | some i =>
        rw [hi, Option.elim_some] at h
        cases hn : i.declaration with
        | interface => exact .specified hi hn (by rwa [hn] at h)
        | _ => rw [hn] at h; cases h
  · rintro (⟨h, hn, hb⟩ | ⟨h, hn, hb⟩ | ⟨h, hn, hb⟩ | ⟨h, hn, hb⟩) <;>
      simp [links, h, hn, classLinks, interfaceLinks, hb]

theorem mem_linked_of_mem_links (h : b ∈ t.links a) : b ∈ t.linked := by
  have hmem {α : Type} {m : NameMap α} {f : α → List String} (h : b ∈ (get? m a).elim [] f) :
      b ∈ m.flatMap fun e => f e.2 := by
    cases hget : get? m a with
    | none => simp [hget] at h
    | some c =>
      obtain ⟨before, rest, rfl, -⟩ := lookup_eq_some_iff.1 hget
      exact mem_flatMap.2 ⟨(a, c), by simp, by rwa [hget] at h⟩
  exact mem_append.2 ((mem_append.1 h).imp hmem hmem)

/-! ### The search -/

/-- Going on from the names that have been seen, a search has come to the given names and to what can be reached from
them: what is new leads to nothing that has not been seen afterwards. -/
structure Closes (t : SymbolTable) (seen names after : List String) : Prop where
  keeps : seen ⊆ after
  covers : names ⊆ after
  closed : ∀ x ∈ after, x ∉ seen → t.links x ⊆ after
  reached : ∀ x ∈ after, x ∈ seen ∨ ∃ s ∈ names, ReflTransGen t.Extends s x
  nodup : seen.Nodup → after.Nodup

namespace Closes

theorem nil : Closes t seen [] seen :=
  ⟨Subset.refl _, nil_subset _, fun _ h h' => absurd h h', fun _ => .inl, id⟩

theorem skip (ha : a ∈ seen) (h : Closes t seen names after) : Closes t seen (a :: names) after where
  keeps := h.keeps
  covers := cons_subset.2 ⟨h.keeps ha, h.covers⟩
  closed := h.closed
  reached x hx := (h.reached x hx).imp_right fun ⟨s, hs, hpath⟩ => ⟨s, .tail a hs, hpath⟩
  nodup := h.nodup

theorem visit {inner : List String} (ha : a ∉ seen) (h : Closes t (a :: seen) (t.links a) inner)
    (h' : Closes t inner names after) :
    Closes t seen (a :: names) after where
  keeps x hx := h'.keeps (h.keeps (.tail a hx))
  covers := cons_subset.2 ⟨h'.keeps (h.keeps (.head seen)), h'.covers⟩
  closed x hx hseen := by
    by_cases hinner : x ∈ inner
    · -- the new name leads to what its own branch has seen, like all that is new in the branch
      have hlinks : t.links x ⊆ inner := by
        by_cases hxa : x = a
        · exact hxa ▸ h.covers
        · exact h.closed x hinner (not_mem_cons_of_ne_of_not_mem hxa hseen)
      exact fun y hy => h'.keeps (hlinks hy)
    · exact h'.closed x hx hinner
  reached x hx := by
    rcases h'.reached x hx with hinner | ⟨s, hs, hpath⟩
    · rcases h.reached x hinner with hx | ⟨s, hs, hpath⟩
      · rcases mem_cons.1 hx with rfl | hx
        · exact .inr ⟨x, .head names, .refl⟩
        · exact .inl hx
      · exact .inr ⟨a, .head names, .head (mem_links_iff.1 hs) hpath⟩
    · exact .inr ⟨s, .tail a hs, hpath⟩
  nodup hseen := h'.nodup (h.nodup (nodup_cons.2 ⟨ha, hseen⟩))

end Closes

/-- The names that some declaration is linked to and that have not been seen. -/
def unseen (t : SymbolTable) (seen : List String) : Finset String := t.linked.toFinset \ seen.toFinset

theorem unseen_subset (h : seen ⊆ after) : t.unseen after ⊆ t.unseen seen :=
  Finset.sdiff_subset_sdiff (Finset.Subset.refl _) fun _ hx => mem_toFinset.2 (h (mem_toFinset.1 hx))

theorem card_unseen_cons_lt (ha : a ∈ t.linked) (hseen : a ∉ seen) :
    (t.unseen (a :: seen)).card < (t.unseen seen).card := by
  refine Finset.card_lt_card ⟨unseen_subset (subset_cons_self a seen), fun h => ?_⟩
  have hmem : a ∈ t.unseen (a :: seen) := h (by simp [unseen, ha, hseen])
  simp [unseen] at hmem

-- Every step down follows a name that has not been seen, so there are steps enough while these are fewer.
theorem closes_reachWithin (hn : (t.unseen seen).card < n) : Closes t seen (t.links a) (t.reachWithin n seen a) := by
  induction n generalizing seen a with
  | zero => cases hn
  | succ n ih =>
    rw [reachWithin]
    have hlinked : ∀ b ∈ t.links a, b ∈ t.linked := fun b => mem_linked_of_mem_links
    generalize t.links a = names at hlinked ⊢
    induction names generalizing seen with
    | nil => exact .nil
    | cons b names ihnames =>
      obtain ⟨hb, hnames⟩ := forall_mem_cons.1 hlinked
      rw [foldl_cons]
      split
      · next hseen => exact .skip hseen (ihnames hn hnames)
      · next hseen =>
        have hless := card_unseen_cons_lt hb hseen
        have hinner := @ih b (b :: seen) (by omega)
        have hkeeps : seen ⊆ _ := fun x hx => hinner.keeps (.tail b hx)
        refine .visit hseen hinner (ihnames ?_ hnames)
        exact lt_of_le_of_lt (Finset.card_le_card (unseen_subset hkeeps)) hn

theorem closes_ancestors (t : SymbolTable) (a : String) : Closes t [] (t.links a) (t.ancestors a) := by
  refine closes_reachWithin (Nat.lt_succ_of_le ?_)
  exact (Finset.card_le_card Finset.sdiff_subset).trans (toFinset_card_le _)

/-- The ancestors of a name are the names that can be reached by one or more links. -/
theorem mem_ancestors_iff : b ∈ t.ancestors a ↔ TransGen t.Extends a b := by
  have h := t.closes_ancestors a
  constructor
  · intro hb
    obtain ⟨s, hs, hpath⟩ := (h.reached b hb).resolve_left not_mem_nil
    exact .head' (mem_links_iff.1 hs) hpath
  · intro hpath
    induction hpath with
    | single hlink => exact h.covers (mem_links_iff.2 hlink)
    | tail _ hlink ih => exact h.closed _ ih not_mem_nil (mem_links_iff.2 hlink)

theorem isAssignable_iff : t.isAssignable a b ↔ ReflTransGen t.Extends a b := by
  rw [reflTransGen_iff_eq_or_transGen, isAssignable, Bool.or_eq_true, decide_eq_true_iff, contains_iff_mem,
    mem_ancestors_iff, eq_comm]

/-- The search for ancestors ends with exactly the names that can be reached, each once.  So a name is found again just
if it lies on a circle, and what may stand for what is a preorder. -/
theorem ancestors_reachable (t : SymbolTable) :
    (∀ a, (t.ancestors a).Nodup ∧ (∀ b, b ∈ t.ancestors a ↔ TransGen t.Extends a b) ∧
      (a ∈ t.ancestors a ↔ ∃ b, t.Extends a b ∧ ReflTransGen t.Extends b a)) ∧
    (∀ a, t.isAssignable a a) ∧
    ∀ a b c, t.isAssignable a b → t.isAssignable b c → t.isAssignable a c := by
  refine ⟨fun a => ⟨(t.closes_ancestors a).nodup List.nodup_nil, fun b => mem_ancestors_iff, ?_⟩,
    fun a => isAssignable_iff.2 .refl, fun a b c hab hbc => ?_⟩
  · rw [mem_ancestors_iff, TransGen.head'_iff]
  · exact isAssignable_iff.2 ((isAssignable_iff.1 hab).trans (isAssignable_iff.1 hbc))

end BraceLang.SymbolTable
