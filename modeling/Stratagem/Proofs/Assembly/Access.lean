import Stratagem.Proofs.Assembly.Agreement

/-
  Classes whose constant pool is open to others.

  Whoever makes a class may add to its pool whatever he likes,
  also a text that is too long to be written.  An index that
  was given for a constant leads to it all the same.

  Key definitions include:
    * `ClassDraft.Access`
    * `ClassDraft.Ends`

  Main declarations:
    * `ClassDraft.indexed_of_start`
    * `ClassDraft.indexed_of_accesses`
    * `ClassDraft.within_of_accesses`
    * `ClassDraft.Ends.within`
-/

namespace Stratagem

open Jvm

namespace ClassDraft

/- One call that works on a class, or on its pool alone. -/
inductive Access : ClassDraft → ClassDraft → Prop
  | call
      {c c' : ClassDraft}
      (hCall : Call c c') :
      Access c c'
  | addConstant
      (c : ClassDraft)
      (k : Constant) :
      Access c (outcomeOf (Drafting.pooled (Pooling.add k)) c).2

/- What becomes of a class when one of its methods has ended. -/
inductive Ends
    (c : ClassDraft)
    (m : MethodDraft) : ClassDraft → Prop
  | giveUp :
      Ends c m { c with pool := m.pool }
  | close
      {m' : MethodDraft}
      {result : Except ClassFileError Member}
      (hFinish : outcomeOf MethodDraft.finish m = (result, m')) :
      Ends c m (outcomeOf (Drafting.close m' result) c).2

variable {c c' : ClassDraft}

theorem Access.indexed
    (hAccess : Access c c')
    (hIndexed : c.pool.Indexed) :
    c'.pool.Indexed := by
  cases hAccess with
  | call hCall => exact hCall.grown.pool.indexed hIndexed
  | addConstant k => exact Pooling.indexed_add k hIndexed

theorem Access.within
    (hAccess : Access c c') :
    c.pool.Within c'.pool := by
  cases hAccess with
  | call hCall => exact hCall.grown.pool.within
  | addConstant k => exact Pooling.within_add k c.pool

theorem indexed_of_accesses
    (hAccesses : Relation.ReflTransGen Access c c')
    (hIndexed : c.pool.Indexed) :
    c'.pool.Indexed := by
  induction hAccesses with
  | refl => exact hIndexed
  | tail _ hAccess ih => exact hAccess.indexed ih

theorem within_of_accesses
    (hAccesses : Relation.ReflTransGen Access c c') :
    c.pool.Within c'.pool := by
  induction hAccesses with
  | refl => exact .refl c.pool
  | tail _ hAccess ih => exact ih.trans hAccess.within

theorem indexed_of_start
    {version access : UInt16}
    {name superName : String}
    (hStart : start version access name superName = .ok c) :
    c.pool.Indexed :=
  (finished_start hStart).pool.indexed

/- However a method ends, its constants stay. -/
theorem Ends.within
    {m : MethodDraft}
    (hEnds : c.Ends m c') :
    m.pool.Within c'.pool := by
  cases hEnds with
  | giveUp => exact .refl m.pool
  | @close m' result hFinish =>
      have hWithin := (MethodDraft.safe_finish m).grown.within
      rw [hFinish] at hWithin
      cases result <;> exact hWithin

/- A pool that was right when a method began is right there. -/
theorem indexed_runAll
    {access : UInt16}
    {name : String}
    {signature : MethodSig}
    {paramNames : List String}
    {m : MethodDraft}
    (hIndexed : c.pool.Indexed)
    (hMethod : c.method access name signature paramNames = .ok m)
    (steps : List Step) :
    (Step.runAll steps m).pool.Indexed := by
  refine (Step.leads_runAll steps m).grown.indexed ?_
  rw [(header_method hMethod).2.2.2.2]
  exact hIndexed

end ClassDraft

end Stratagem
