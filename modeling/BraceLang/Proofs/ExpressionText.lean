import BraceLang.Proofs.ProgramOutcome
import BraceLang.Proofs.Render

/-!
# The text of an expression

An expression leaves the context of its text as it found it.
-/

namespace BraceLang

open Node

namespace Render

def Steady {α : Type} (r : Render α) : Prop := ∀ s, (r s).2 = s

section

variable {α β : Type} {r : Render α} {f : α → Render β} {c : Prop} [Decidable c]

theorem steady_pure (a : α) : Steady (pure a : Render α) := fun _ => rfl

theorem steady_get : Steady (get : Render Context) := fun _ => rfl

theorem Steady.bind (h : Steady r) (hf : ∀ a, Steady (f a)) : Steady (r >>= f) := by
  intro s
  show (f (r s).1 (r s).2).2 = s
  rw [hf, h]

theorem Steady.ite (h : Steady r) (h' : Steady r') : Steady (if c then r else r') := by
  split
  · exact h
  · exact h'

theorem Steady.choice (h : Steady r) (h' : Steady r') (hf : ∀ a, Steady (f a)) :
    Steady (if c then r >>= f else r' >>= f) :=
  (h.bind hf).ite (h'.bind hf)

theorem Steady.optional {γ : Type} {g : γ → α} {r : Render γ} (h : Steady r) (hf : ∀ a, Steady (f a)) :
    Steady (if c then (do f (← pure (g (← r)))) else (do f (← pure a))) :=
  Steady.ite (h.bind fun _ => hf _) (hf a)

theorem Steady.append {r r' : Render String} (h : Steady r) (h' : Steady r') : Steady (r ++ r') :=
  h.bind fun _ => h'.bind fun _ => steady_pure _

end

section

variable {target : Target} {ns : List Node}

theorem steady_following (h : ∀ n ∈ ns, Steady (n.render target)) : Steady (renderFollowing target separator ns) := by
  induction ns with
  | nil => exact steady_pure _
  | cons n ns ih =>
    obtain ⟨hn, hns⟩ := List.forall_mem_cons.1 h
    exact (steady_pure _).append (hn.append (ih hns))

theorem steady_separated (h : ∀ n ∈ ns, Steady (n.render target)) : Steady (renderSeparated target ns) := by
  cases ns with
  | nil => exact steady_pure _
  | cons =>
    obtain ⟨hn, hns⟩ := List.forall_mem_cons.1 h
    exact hn.append (steady_following hns)

theorem steady_list (h : ∀ n ∈ ns, Steady (n.render target)) : Steady (renderList target ns) := by
  induction ns with
  | nil => exact steady_pure _
  | cons n ns ih =>
    obtain ⟨hn, hns⟩ := List.forall_mem_cons.1 h
    exact hn.bind fun _ => (ih hns).bind fun _ => steady_pure _

end

end Render

open Render

def Role.isExpression : Role → Bool
  | expression | operand | argument | index | entry | declared => true
  | _ => false

theorem Fits.steady (h : Fits W role n)
    (hrole : role.isExpression) (target : Target) : Steady (n.render target) := by
  induction h with
  | identifier => exact steady_get.bind fun _ => steady_pure _
  | truth | nothing | literal | slice | missing => exact steady_pure _
  | @sequence kind items hk _ ih =>
    have hitems := steady_separated fun n hn => ih n hn rfl
    rcases hk with rfl | rfl | rfl
    · exact (steady_pure _).append (hitems.append (steady_pure _))
    · exact (steady_pure _).append (hitems.append (((steady_pure _).ite (steady_pure _)).append (steady_pure _)))
    · exact (steady_pure _).ite ((steady_pure _).append (hitems.append (steady_pure _)))
  | dictionary _ ih =>
    exact (steady_pure _).append ((steady_separated fun n hn => ih n hn rfl).append (steady_pure _))
  | entry _ _ ih ih' | subscript _ _ ih ih' | binary _ _ _ ih ih' | logical _ _ _ ih ih' | assignment _ _ _ ih ih' =>
    exact (ih rfl).bind fun _ => (ih' rfl).bind fun _ => steady_pure _
  | member _ _ ih | namedArgument _ _ ih | unary _ _ ih => exact (ih rfl).bind fun _ => steady_pure _
  | call _ _ ihcallee ihargs =>
    exact Steady.choice (steady_pure _) (ihcallee rfl) fun _ =>
      (steady_list fun n hn => ihargs n hn rfl).bind fun _ => steady_pure _
  | plainArgument _ ih | plainIndex _ ih | present _ ih => exact ih rfl
  | @comprehension kind element place source condition key _ _ _ _ _ _ ihelement ihplace ihsource ihcondition ihkey =>
    refine (ihelement rfl).bind fun _ => Steady.optional (ihkey rfl) fun _ => ?_
    refine (ihplace rfl).bind fun _ => (ihsource rfl).bind fun _ => Steady.optional (ihcondition rfl) fun _ => ?_
    cases kind <;> exact steady_pure _
  | declared _ _ _ ihplace ihvalue =>
    exact (ihplace rfl).bind fun _ => steady_get.bind fun _ =>
      ((ihvalue rfl).bind fun _ => steady_pure _).ite (steady_pure _)
  | _ => cases hrole

end BraceLang
