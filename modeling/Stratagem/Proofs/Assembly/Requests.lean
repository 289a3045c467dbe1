import Stratagem.Proofs.Assembly.Jumps

/-
  Constants and locals are what was asked for.

  A constant can be pushed in up to five ways, and a local can
  be named in three.  Whichever is chosen, the bytes that are
  written are those of one instruction, which pushes the very
  constant that was asked for, bit by bit, or loads or stores
  the very local, with all that is added to the pool later.

  Key definitions include:
    * `Request`
    * `Request.MetBy`
    * `Step.request?`

  Main declarations:
    * `fulfils_of_request`
    * `ClassDraft.requests_met`
-/

namespace Stratagem

open Jvm Emitter

------------------------------------------------------------
-- Requests
------------------------------------------------------------

/- What is asked for: a constant, or the use of a local. -/
inductive Request where
  | constant (l : Literal)
  | load (v : LocalVar)
  | store (v : LocalVar)

/- Whether it is a constant that is asked for. -/
def Request.isConstant : Request → Bool
  | .constant _ => true
  | _ => false

/- The request that a step makes, if its local exists. -/
def Step.request?
    (m : MethodDraft) : Step → Option Request
  | .iconst n => some (.constant (.int n))
  | .lconst n => some (.constant (.long n))
  | .fconst x => some (.constant (.float x))
  | .dconst x => some (.constant (.double x))
  | .ldcString s => some (.constant (.string s))
  | .load l => m.locals[l.index]?.map .load
  | .store l => m.locals[l.index]?.map .store
  | _ => none

/- The family of the values that an operation loads. -/
def Opcode.loads? : Opcode → Option Family
  | .load f => some f
  | .loadShort f _ => some f
  | _ => none

/- The family of the values that an operation stores. -/
def Opcode.stores? : Opcode → Option Family
  | .store f => some f
  | .storeShort f _ => some f
  | _ => none

/-
  An instruction does what was asked for.  What it pushes is
  implied, an operand, or found in the pool; the local that it
  uses has the slots of the one that was named.
-/
def Request.MetBy
    (p : ConstantPool)
    (i : Instruction) : Request → Prop
  | .constant l => i.action? p = some (.push l)
  | .load v =>
      i.opcode.loads? = some (.ofTy v.ty) ∧
        i.slot? = some (v.slot, max v.ty.slots 1)
  | .store v =>
      i.opcode.stores? = some (.ofTy v.ty) ∧
        i.slot? = some (v.slot, max v.ty.slots 1)

/- What is done is done also with more constants. -/
theorem Request.MetBy.within
    {p q : ConstantPool}
    {i : Instruction}
    {r : Request}
    (hMet : r.MetBy p i)
    (hWithin : p.Within q) :
    r.MetBy q i := by
  cases r with
  | constant l => exact Instruction.action?_within hWithin hMet
  | load v => exact hMet
  | store v => exact hMet

------------------------------------------------------------
-- Instructions
------------------------------------------------------------

section Requests

variable {m m' : MethodDraft} {r : Request}

/- One instruction is written, and it does what was asked for. -/
def Fulfils
    (m : MethodDraft)
    (r : Request)
    (m' : MethodDraft) : Prop :=
  ∃ i : Instruction, m'.lines = m.lines.push (.instruction i) ∧
    i.offset = m.offset ∧ i.Legal ∧ r.MetBy m'.pool i

theorem Emits.fulfils
    {l : Literal}
    (hEmits : Emits m [.push l] [] m') :
    Fulfils m (.constant l) m' := by
  rcases hEmits.writes.code with
    ⟨i, hLines, hPlace, hLegal, -, hAction⟩
  exact ⟨i, hLines, hPlace, hLegal, hAction⟩

/- What holds of both operations for a slot holds of the chosen. -/
theorem opcode_onSlot
    {P : Opcode → Prop}
    {short : Fin 4 → Opcode}
    {long : Opcode}
    (offset slot : Nat)
    (hShort : ∀ k, P (short k))
    (hLong : P long) :
    P (Instruction.onSlot offset short long slot).opcode :=
  Instruction.onSlot_cases (P := fun i => P i.opcode)
    (fun _ => hShort _) (fun _ => hLong) hLong

theorem fulfils_load
    {l : Local}
    {v : LocalVar}
    (hNumbered : m.Numbered)
    (hLocal : m.locals[l.index]? = some v) :
    Fulfils m (.load v) (outcomeOf (load l) m).2 := by
  have hSmall := hNumbered v (Array.mem_of_getElem? hLocal)
  rw [outcomeOf_load, hLocal]
  refine ⟨.onSlot m.offset (.loadShort (.ofTy v.ty))
    (.load (.ofTy v.ty)) v.slot, rfl,
    Instruction.offset_onSlot _ _ _ _, legal_onSlot_load _ _ _,
    opcode_onSlot (P := fun o => o.loads? = some (.ofTy v.ty))
      _ _ (fun _ => rfl) rfl, ?_⟩
  rw [Instruction.slot?_of_action (action?_onSlot_load m.pool
    m.offset (.ofTy v.ty) hSmall), ← Ty.width_eq]
  rfl

theorem fulfils_store
    {l : Local}
    {v : LocalVar}
    (hNumbered : m.Numbered)
    (hLocal : m.locals[l.index]? = some v) :
    Fulfils m (.store v) (outcomeOf (store l) m).2 := by
  have hSmall := hNumbered v (Array.mem_of_getElem? hLocal)
  have hSame := (MethodDraft.SameCode.refl m).pop
  rw [outcomeOf_store hLocal]
  refine ⟨.onSlot m.pop.2.offset (.storeShort (.ofTy v.ty))
    (.store (.ofTy v.ty)) v.slot, ?_, ?_, legal_onSlot_store _ _ _,
    opcode_onSlot (P := fun o => o.stores? = some (.ofTy v.ty))
      _ _ (fun _ => rfl) rfl, ?_⟩
  · rw [← hSame.lines]
    rfl
  · rw [Instruction.offset_onSlot]
    exact hSame.offset
  · rw [Instruction.slot?_of_action (action?_onSlot_store m.pool
      m.pop.2.offset (.ofTy v.ty) hSmall), ← Ty.width_eq]
    rfl

/- A request that is accepted is fulfilled. -/
theorem fulfils_of_request
    {s : Step}
    (hIndexed : m.pool.Indexed)
    (hNumbered : m.Numbered)
    (hRequest : s.request? m = some r)
    (hAccepted : Yields s.run m () m') :
    Fulfils m r m' := by
  have hAfter : (outcomeOf s.run m).2 = m' := by
    rw [hAccepted]
  cases s with
  | iconst n =>
      cases hRequest
      exact (emits_iconst hIndexed hAccepted).fulfils
  | lconst n =>
      cases hRequest
      exact (emits_lconst hIndexed hAccepted).fulfils
  | fconst x =>
      cases hRequest
      exact (emits_fconst hIndexed hAccepted).fulfils
  | dconst x =>
      cases hRequest
      exact (emits_dconst hIndexed hAccepted).fulfils
  | ldcString s =>
      cases hRequest
      exact (emits_ldcString hIndexed hAccepted).fulfils
  | load l =>
      rcases Option.map_eq_some_iff.mp hRequest with
        ⟨v, hLocal, rfl⟩
      rw [← hAfter]
      exact fulfils_load hNumbered hLocal
  | store l =>
      rcases Option.map_eq_some_iff.mp hRequest with
        ⟨v, hLocal, rfl⟩
      rw [← hAfter]
      exact fulfils_store hNumbered hLocal
  | _ => cases hRequest

/- The use of a local that exists is always accepted. -/
theorem accepted_of_uses
    {s : Step}
    (hRequest : s.request? m = some r)
    (hUses : r.isConstant = false) :
    ∃ m', Yields s.run m () m' := by
  cases s with
  | load l =>
      rcases Option.map_eq_some_iff.mp hRequest with ⟨v, hLocal, -⟩
      change ∃ m', outcomeOf (load l) m = (.ok (), m')
      rw [outcomeOf_load, hLocal]
      exact ⟨_, rfl⟩
  | store l =>
      rcases Option.map_eq_some_iff.mp hRequest with ⟨v, hLocal, -⟩
      exact ⟨_, outcomeOf_store hLocal⟩
  | iconst _ => cases hRequest; cases hUses
  | lconst _ => cases hRequest; cases hUses
  | fconst _ => cases hRequest; cases hUses
  | dconst _ => cases hRequest; cases hUses
  | ldcString _ => cases hRequest; cases hUses
  | _ => cases hRequest

end Requests

------------------------------------------------------------
-- Finished Methods
------------------------------------------------------------

/-
  A request is made of a method of a class, whatever was done
  to both before.  What is accepted, as the use of a local is
  at once, appends the bytes of one instruction.  That is what
  is read there, with any bytes behind it, it is in the code of
  the finished method, and it does what was asked for with all
  constants the class has ever after.
-/
theorem ClassDraft.requests_met
    {version access flags : UInt16}
    {className superName name : String}
    {signature : MethodSig}
    {paramNames : List String}
    {c₀ c : ClassDraft}
    {m : MethodDraft}
    {s : Step}
    {r : Request}
    (hStart : start version access className superName = .ok c₀)
    (hBefore : Relation.ReflTransGen Access c₀ c)
    (hMethod : c.method flags name signature paramNames = .ok m)
    (before after : List Step)
    (hRequest : s.request? (Step.runAll before m) = some r) :
    (r.isConstant = false →
      ∃ m₂, Yields s.run (Step.runAll before m) () m₂) ∧
    ∀ m₂, Yields s.run (Step.runAll before m) () m₂ →
      ∃ i : Instruction,
        m₂.written =
          (Step.runAll before m).written ++ i.encode ∧
        (∀ rest,
          Instruction.decodeAt (Step.runAll before m).written.length
            (i.encode ++ rest) = .ok (i, rest)) ∧
        (∀ c₁ c₂, c.Ends (Step.runAll after m₂) c₁ →
          Relation.ReflTransGen Access c₁ c₂ →
          r.MetBy c₂.pool i) ∧
        ∀ member m',
          Yields MethodDraft.finish (Step.runAll after m₂)
            member m' →
          ∃ (is : List Instruction) (body : CodeAttribute)
            (codeName : UInt16) (rest : List Attribute),
            member.attributes =
              { name := codeName, info := body.encode } :: rest ∧
            m'.pool.textAt? codeName = some "Code" ∧
            decodeCode body.code = .ok is ∧ i ∈ is := by
  refine ⟨accepted_of_uses hRequest, fun m₂ hAccepted => ?_⟩
  have hIndexed :=
    indexed_of_accesses hBefore (indexed_of_start hStart)
  have hBare := bare_method hMethod
  rcases Step.adds_runAll before m with ⟨ls, hAdds⟩
  rcases fulfils_of_request (indexed_runAll hIndexed hMethod before)
    (hAdds.numbered (numbered_method hMethod)) hRequest hAccepted
    with ⟨i, hLines, hPlace, hLegal, hMet⟩
  have hApply : Step.apply (Step.runAll before m) s = m₂ := by
    change (outcomeOf s.run (Step.runAll before m)).2 = m₂
    rw [hAccepted]
  have hLength : (Step.runAll before m).written.length =
      (Step.runAll before m).offset :=
    (Nat.zero_add _).symm.trans
      (hBare.lined before).length_bytes
  refine ⟨i, ?_, ?_, ?_, ?_⟩
  · rw [MethodDraft.written, hLines, Array.toList_push,
      List.flatMap_append, List.flatMap_singleton]
    rfl
  · rw [hLength, ← hPlace]
    exact hLegal.decodeAt_encode
  · intro c₁ c₂ hEnds hAfter
    have hGrown := (Step.leads_runAll after m₂).grown.within
    exact hMet.within ((hGrown.trans hEnds.within).trans
      (within_of_accesses hAfter))
  · intro member m' hFinish
    rcases Step.adds_runAll after m₂ with ⟨ks, hLater⟩
    have hRun : Step.runAll after m₂ =
        Step.runAll (before ++ s :: after) m := by
      rw [Step.runAll_append, ← hApply]
      rfl
    rw [hRun] at hLater hFinish
    refine mem_code_of_finish hIndexed hMethod ?_ hFinish
    rw [hLater.lines, hLines, Array.toList_push]
    exact List.mem_append_left ks
      (List.mem_append_right _ List.mem_cons_self)

------------------------------------------------------------
-- Samples
------------------------------------------------------------

/- The zero with a sign is pushed as it is. -/
theorem negativeZero_met :
    ∃ (c : ClassDraft) (m m₂ m' : MethodDraft) (member : Member)
      (i : Instruction),
      ClassDraft.start 49 1 "A" "java/lang/Object" = .ok c ∧
      c.method 8 "m" plainMethod [] = .ok m ∧
      Yields (Step.dconst ⟨0x8000000000000000⟩).run m () m₂ ∧
      Yields MethodDraft.finish
        (Step.runAll [.drop, .returnValue (.primitive .void)] m₂)
        member m' ∧
      m₂.written = i.encode ∧
      i.action? m'.pool =
        some (.push (.double ⟨0x8000000000000000⟩)) := by
  have hDraft : ∃ c m,
      ClassDraft.start 49 1 "A" "java/lang/Object" = .ok c ∧
      c.method 8 "m" plainMethod [] = .ok m ∧
      (outcomeOf (Step.dconst ⟨0x8000000000000000⟩).run m).1.isOk =
        true ∧
      (outcomeOf MethodDraft.finish (Step.runAll
        [.drop, .returnValue (.primitive .void)]
        (outcomeOf (Step.dconst ⟨0x8000000000000000⟩).run m).2)
        ).1.isOk = true :=
    ⟨_, _, rfl, rfl, by decide +kernel⟩
  rcases hDraft with ⟨c, m, hStart, hMethod, hPush, hOk⟩
  rcases exists_yields_of_isOk hPush with ⟨_, m₂, hAccepted⟩
  rw [hAccepted] at hOk
  rcases exists_yields_of_isOk hOk with ⟨member, m', hFinish⟩
  rcases (ClassDraft.requests_met hStart .refl hMethod []
    [.drop, .returnValue (.primitive .void)] rfl).2 m₂ hAccepted
    with ⟨i, hWritten, -, hMet, -⟩
  have hEnds : c.Ends (Step.runAll
      [.drop, .returnValue (.primitive .void)] m₂)
      { c with pool := m'.pool, methods := c.methods.push member } :=
    .close hFinish
  have hPushed := hMet _ _ hEnds .refl
  refine ⟨c, m, m₂, m', member, i, hStart, hMethod, hAccepted,
    hFinish, ?_, hPushed⟩
  have hNone : (Step.runAll [] m).written = [] := by
    change m.lines.toList.flatMap Line.bytes = []
    rw [(ClassDraft.bare_method hMethod).lines]
    rfl
  rw [hWritten, hNone, List.nil_append]

end Stratagem
