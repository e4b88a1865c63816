import BraceLang.Proofs.Appending
import BraceLang.Syntax.Occurrence
import Mathlib.Logic.Relation

/-!
# The order of the walk

The walk with a stack comes to every place of a tree once, and to a node before its children.
-/

namespace BraceLang

open List

namespace Occurrence

variable {o p c : Occurrence} {stack rest : List Occurrence}

theorem mem_children_iff : c ∈ o.children ↔ ∃ i, c.place = i :: o.place ∧ o.node.children[i]? = some c.node := by
  simp only [children, mem_map, mem_zipIdx_iff_getElem?, Prod.exists]
  constructor
  · rintro ⟨m, i, hm, rfl⟩
    exact ⟨i, rfl, hm⟩
  · rintro ⟨i, hplace, hm⟩
    refine ⟨c.node, i, hm, ?_⟩
    rw [← hplace]

theorem walkFrom_cons (o : Occurrence) (stack : List Occurrence) :
    walkFrom (o :: stack) = o :: walkFrom (o.children.reverse ++ stack) := by
  rw [walkFrom]

theorem map_node_walkFrom (stack : List Occurrence) :
    (walkFrom stack).map node = (stack.map node).flatMap Node.walk := by
  induction stack using walkFrom.induct with
  | case1 =>
    rw [walkFrom]
    rfl
  | case2 o stack ih =>
    rw [walkFrom_cons, map_cons, ih, map_cons, flatMap_cons, Node.walk_eq, map_append, flatMap_append, map_reverse,
      map_node_children, cons_append]

theorem mem_walkFrom_of_mem (h : o ∈ stack) : o ∈ walkFrom stack := by
  induction stack using walkFrom.induct with
  | case1 => cases h
  | case2 top stack ih =>
    rw [walkFrom_cons]
    rcases mem_cons.1 h with rfl | h
    · exact mem_cons_self
    · exact mem_cons_of_mem top (ih (mem_append_right _ h))

theorem mem_walkFrom_of_mem_children (hp : p ∈ walkFrom stack) (hc : c ∈ p.children) : c ∈ walkFrom stack := by
  induction stack using walkFrom.induct with
  | case1 =>
    rw [walkFrom] at hp
    cases hp
  | case2 top stack ih =>
    rw [walkFrom_cons] at hp ⊢
    rcases mem_cons.1 hp with rfl | hp
    · exact mem_cons_of_mem p (mem_walkFrom_of_mem (mem_append_left _ (mem_reverse.2 hc)))
    · exact mem_cons_of_mem top (ih hp)

/-- What is walked is on the stack, or it is a child of what was walked before. -/
theorem parent_before {k : Nat} (h : (walkFrom stack)[k]? = some c) :
    c ∈ stack ∨ ∃ j < k, ∃ p, (walkFrom stack)[j]? = some p ∧ c ∈ p.children := by
  induction stack using walkFrom.induct generalizing k with
  | case1 =>
    rw [walkFrom] at h
    cases h
  | case2 top stack ih =>
    rw [walkFrom_cons] at h ⊢
    cases k with
    | zero =>
      cases h
      exact .inl mem_cons_self
    | succ k =>
      rcases ih h with hmem | ⟨j, hj, p, hp, hc⟩
      · rcases mem_append.1 hmem with hmem | hmem
        · exact .inr ⟨0, by omega, top, rfl, mem_reverse.1 hmem⟩
        · exact .inl (mem_cons_of_mem top hmem)
      · exact .inr ⟨j + 1, by omega, p, hp, hc⟩

theorem exists_suffix_of_mem_walkFrom (h : c ∈ walkFrom stack) : ∃ o ∈ stack, o.place <:+ c.place := by
  induction stack using walkFrom.induct with
  | case1 =>
    rw [walkFrom] at h
    cases h
  | case2 top stack ih =>
    rw [walkFrom_cons] at h
    rcases mem_cons.1 h with rfl | h
    · exact ⟨c, mem_cons_self, suffix_rfl⟩
    · obtain ⟨o, ho, hsuffix⟩ := ih h
      rcases mem_append.1 ho with ho | ho
      · obtain ⟨i, hplace, -⟩ := mem_children_iff.1 (mem_reverse.1 ho)
        rw [hplace] at hsuffix
        exact ⟨top, mem_cons_self, (suffix_cons i _).trans hsuffix⟩
      · exact ⟨o, mem_cons_of_mem top ho, hsuffix⟩

/-- Neither of two occurrences stands below the other. -/
def Apart (o p : Occurrence) : Prop := ¬ o.place <:+ p.place ∧ ¬ p.place <:+ o.place

theorem apart_children (o : Occurrence) : o.children.reverse.Pairwise Apart := by
  have hnumbers : o.node.children.zipIdx.Pairwise fun c d => c.2 ≠ d.2 := by
    rw [← pairwise_map, zipIdx_map_snd]
    exact nodup_range'
  rw [pairwise_reverse, children, pairwise_map]
  refine hnumbers.imp fun {c d} hne => ?_
  have hnot {i j : Nat} (hij : i ≠ j) : ¬ i :: o.place <:+ j :: o.place := fun h =>
    hij (cons.inj (h.eq_of_length rfl)).1
  exact ⟨hnot hne.symm, hnot hne⟩

theorem nodup_places_walkFrom (h : stack.Pairwise Apart) : ((walkFrom stack).map place).Nodup := by
  induction stack using walkFrom.induct with
  | case1 =>
    rw [walkFrom]
    exact nodup_nil
  | case2 top stack ih =>
    obtain ⟨htop, hstack⟩ := pairwise_cons.1 h
    rw [walkFrom_cons, map_cons, nodup_cons]
    constructor
    · intro hmem
      obtain ⟨c, hc, hplace⟩ := mem_map.1 hmem
      obtain ⟨o, ho, hsuffix⟩ := exists_suffix_of_mem_walkFrom hc
      rw [hplace] at hsuffix
      rcases mem_append.1 ho with ho | ho
      · obtain ⟨i, hi, -⟩ := mem_children_iff.1 (mem_reverse.1 ho)
        have hlength := hsuffix.length_le
        rw [hi, length_cons] at hlength
        omega
      · exact (htop o ho).2 hsuffix
    · refine ih (pairwise_append.2 ⟨apart_children top, hstack, fun c hc o ho => ?_⟩)
      obtain ⟨i, hi, -⟩ := mem_children_iff.1 (mem_reverse.1 hc)
      rw [Apart, hi]
      refine ⟨fun hbelow => (htop o ho).1 ((suffix_cons i _).trans hbelow), fun habove => ?_⟩
      rcases suffix_cons_iff.1 habove with heq | habove
      · exact (htop o ho).1 (heq ▸ suffix_cons i _)
      · exact (htop o ho).2 habove

end Occurrence

namespace Node

variable {n c : Node} {place : List Nat} {o p : Occurrence}

/-- The node at a place below `n`. -/
def at? (n : Node) : List Nat → Option Node
  | [] => some n
  | i :: place => (n.at? place).bind fun m => m.children[i]?

theorem mem_children_iff {p : Node} : c ∈ p.children ↔ ∃ f ∈ p.fields, c ∈ f.2.members ∧ c.isPresent := by
  simp [children]

theorem mem_walk_iff_reaches : c ∈ n.walk ↔
    Relation.ReflTransGen (fun p c => ∃ f ∈ p.fields, c ∈ f.2.members ∧ c.isPresent) n c := by
  constructor
  · intro h
    induction n using walk.induct with
    | case1 n ih =>
      rcases mem_walk_iff.1 h with rfl | ⟨m, hm, h⟩
      · exact .refl
      · exact .head (mem_children_iff.1 hm) (ih ⟨m, mem_reverse.2 hm⟩ h)
  · intro h
    induction h using Relation.ReflTransGen.head_induction_on with
    | refl => exact mem_walk_self c
    | head hm _ ih => exact mem_walk_of_mem_children (mem_children_iff.2 hm) ih

theorem mem_occurrences_iff : o ∈ n.occurrences ↔ n.at? o.place = some o.node := by
  constructor
  · intro h
    obtain ⟨k, hk⟩ := getElem?_of_mem h
    induction k using Nat.strongRecOn generalizing o with
    | _ k ih =>
      rcases Occurrence.parent_before hk with hroot | ⟨j, hj, p, hp, hc⟩
      · cases mem_singleton.1 hroot
        rfl
      · obtain ⟨i, hplace, hchild⟩ := Occurrence.mem_children_iff.1 hc
        rw [hplace, at?, ih j hj (mem_of_getElem? hp) hp]
        exact hchild
  · obtain ⟨place, m⟩ := o
    intro h
    induction place generalizing m with
    | nil =>
      cases h
      exact Occurrence.mem_walkFrom_of_mem mem_cons_self
    | cons i place ih =>
      obtain ⟨p, hp, hchild⟩ := Option.bind_eq_some_iff.1 h
      exact Occurrence.mem_walkFrom_of_mem_children (ih p hp) (Occurrence.mem_children_iff.2 ⟨i, rfl, hchild⟩)

theorem parentOf?_eq_some_iff : n.parentOf? place = some p ↔ p ∈ n.occurrences ∧ ∃ c ∈ p.children, c.place = place := by
  constructor
  · intro h
    exact ⟨mem_of_find?_eq_some h, by simpa using find?_some h⟩
  · rintro ⟨hp, c, hc, rfl⟩
    have hsome : (n.parentOf? c.place).isSome := by
      rw [parentOf?, find?_isSome]
      exact ⟨p, hp, by simpa using ⟨c, hc, rfl⟩⟩
    obtain ⟨q, hq⟩ := Option.isSome_iff_exists.1 hsome
    have hchild : ∃ d ∈ q.children, d.place = c.place := by simpa using find?_some hq
    obtain ⟨d, hd, hplace⟩ := hchild
    -- both stand one step above the place, and one place has one node
    obtain ⟨i, hi, -⟩ := Occurrence.mem_children_iff.1 hc
    obtain ⟨j, hj, -⟩ := Occurrence.mem_children_iff.1 hd
    rw [hi, hj] at hplace
    have habove : q.place = p.place := (cons.inj hplace).2
    have hnode := mem_occurrences_iff.1 (mem_of_find?_eq_some hq)
    rw [habove, mem_occurrences_iff.1 hp] at hnode
    rw [hq]
    cases p
    cases q
    cases habove
    cases hnode
    rfl

theorem parentOf?_eq_none_iff : n.parentOf? place = none ↔ place = [] ∨ n.at? place = none := by
  constructor
  · intro h
    by_contra! hplace
    obtain ⟨i, up, rfl⟩ := exists_cons_of_ne_nil hplace.1
    obtain ⟨m, hm⟩ := Option.ne_none_iff_exists'.1 hplace.2
    obtain ⟨p, hp, hchild⟩ := Option.bind_eq_some_iff.1 hm
    have hparent : n.parentOf? (i :: up) = some ⟨up, p⟩ := parentOf?_eq_some_iff.2
      ⟨mem_occurrences_iff.2 hp, ⟨i :: up, m⟩, Occurrence.mem_children_iff.2 ⟨i, rfl, hchild⟩, rfl⟩
    rw [h] at hparent
    cases hparent
  · intro h
    by_contra hne
    obtain ⟨p, hp⟩ := Option.ne_none_iff_exists'.1 hne
    obtain ⟨hmem, c, hc, rfl⟩ := parentOf?_eq_some_iff.1 hp
    obtain ⟨i, hplace, hchild⟩ := Occurrence.mem_children_iff.1 hc
    rw [hplace, at?, mem_occurrences_iff.1 hmem, Option.bind_some, hchild] at h
    rcases h with h | h <;> cases h

/-- The walk with a stack comes to the nodes in the order of the tree: to those that are reached through fields, to each
place once, and to a parent before its children.  The parent of an occurrence is the one that has it among its children;
only the root and what is not in the tree have none. -/
theorem occurrences_parentOf? (n : Node) :
    n.occurrences.map Occurrence.node = n.walk ∧
    (∀ m, m ∈ n.walk ↔
      Relation.ReflTransGen (fun p c => ∃ f ∈ p.fields, c ∈ f.2.members ∧ c.isPresent) n m) ∧
    (n.occurrences.map Occurrence.place).Nodup ∧
    (∀ o, o ∈ n.occurrences ↔ n.at? o.place = some o.node) ∧
    (∀ (k : Nat) (c p : Occurrence), n.occurrences[k]? = some c → n.parentOf? c.place = some p →
      ∃ j < k, n.occurrences[j]? = some p) ∧
    (∀ place p, n.parentOf? place = some p ↔ p ∈ n.occurrences ∧ ∃ c ∈ p.children, c.place = place) ∧
    ∀ place, n.parentOf? place = none ↔ place = [] ∨ n.at? place = none := by
  refine ⟨?_, fun m => mem_walk_iff_reaches, ?_, fun o => mem_occurrences_iff, fun k c p hc hp => ?_,
    fun place p => parentOf?_eq_some_iff, fun place => parentOf?_eq_none_iff⟩
  · rw [occurrences, Occurrence.map_node_walkFrom]
    exact append_nil _
  · exact Occurrence.nodup_places_walkFrom (pairwise_singleton _ _)
  · rcases Occurrence.parent_before hc with hroot | ⟨j, hj, q, hq, hchild⟩
    · cases mem_singleton.1 hroot
      rw [parentOf?_eq_none_iff.2 (.inl rfl)] at hp
      cases hp
    · have hparent := parentOf?_eq_some_iff.2 ⟨mem_of_getElem? hq, c, hchild, rfl⟩
      rw [hparent] at hp
      cases hp
      exact ⟨j, hj, hq⟩

end Node

end BraceLang
