import BraceLang.Proofs.Scaffolding

/-!
# The heads of compiled classes

An interface is not written for the compiled target, but a class that implements it still names it as a base.
-/

namespace BraceLang

open List Emit

/-- The head that is written of a class for the compiled target. -/
def compiledHeader : Node → List String
  | .classDecl head _ _ _ => ["cdef class " ++ head.name ++ basesText (head.bases ++ head.interfaces) ++ ":\n"]
  | .dataClass name _ _ params bases _ _ => ["class " ++ name ++ basesText (genericBase params ++ bases) ++ ":\n"]
  | _ => []

theorem classBaseNames_cython (order : NameOrder) (head : ClassHead) (params : List Node) :
    classBaseNames (.cython order) head params = head.bases ++ head.interfaces := by
  simp [classBaseNames, Target.isCompiled]

namespace Emit

theorem shows_compiledHeader (order : NameOrder) (n : Node) : Shows (compiledHeader n) (n.emit (.cython order)) := by
  have hblock {body : List Node} {block : Emit Unit} (h : Holds (.cython order) body block) : Shows [] block :=
    (h (fun _ => []) fun c _ => (settles_node c).shows).sublist (nil_sublist _)
  cases n with
  | classDecl head body params annotations =>
    obtain ⟨block, hholds, hemit⟩ := exists_emit_classDecl (.cython order) head body params annotations
    rw [hemit, compiledHeader, ← classBaseNames_cython order head params]
    refine Shows.withinClass (Shows.withFinals (shows_ite _ (fun hfinal => ?_) fun _ => ?_)) _ _
    · simp [Target.isCompiled] at hfinal
    · exact shows_write.andThen (hblock hholds).deeper
  | dataClass name fields body params bases annotations p =>
    obtain ⟨block, hholds, hemit⟩ := exists_emit_dataClass (.cython order) name fields body params bases annotations p
    rw [hemit]
    refine Shows.withinClass (settles_piece.before (shows_write.andThen (Shows.deeper ?_))) _ _
    exact settles_ownLine.before ((settles_forM (fun _ => settles_ownLine) _).before (hblock hholds))
  | _ => exact (settles_node _).shows

end Emit

/-- In the compiled text of a program the heads of its classes stand in their order.  Each class names the interfaces
that it implements as bases, and each data class with type parameters is generic. -/
theorem toSource_compiledHeaders (order : NameOrder) (body : List Node) (imports : List String) :
    Followed "" (body.flatMap compiledHeader) ((Node.module body).toSource (.cython order) imports) := by
  cases body with
  | nil => exact ⟨"", _, rfl⟩
  | cons n ns =>
    have hstatements := holds_statements n ns compiledHeader fun c _ => shows_compiledHeader order c
    have hspace : Settles [] (if (Needs.of (n :: ns)).spaced (.cython order) imports then newLine else pure ()) :=
      settles_ite _ settles_piece settles_pure
    have hfollowed := hspace.before (hstatements.settled settles_newLine_dropBlankEnd)
      (((Needs.of (n :: ns)).importLines (.cython order) imports).forM write
        ((programContext (n :: ns)).writer (Target.header (.cython order)).toArray)).2
    rw [toSource_module, statementLines_cons]
    exact hfollowed.of_stretch ⟨"", _, rfl⟩

end BraceLang
