import Stratagem.Assembly.Emitter
import Stratagem.ClassFile.Check
import Stratagem.Proofs.ClassFile.PoolGrowth

/-
  What instructions do, their encoding apart.

  Several instructions can do the same: a number is pushed by
  a short instruction, by one with an operand or from the
  constant pool.  An action says what is done, with the names
  that the instruction finds in the pool.

  Key definitions include:
    * `Literal`
    * `Action`
    * `Instruction.action?`
    * `Action.effect?`

  Main declarations:
    * `Instruction.action?_within`
    * `Instruction.effect?_of_action`
    * `Instruction.checkConstant_of_action`
    * `Instruction.checkLocal_of_action`
-/

namespace Stratagem

open Jvm

------------------------------------------------------------
-- Actions
------------------------------------------------------------

/- A constant that can be pushed. -/
inductive Literal where
  | null
  | int (n : Int32)
  | long (n : Int64)
  | float (x : Binary32)
  | double (x : Binary64)
  | string (s : String)
  | classOf (name : String)

/- The type of a constant. -/
def Literal.vtype : Literal → VType
  | .null => .null
  | .int _ => .int
  | .long _ => .long
  | .float _ => .float
  | .double _ => .double
  | .string _ => .object "java/lang/String"
  | .classOf _ => .object "java/lang/Class"

/- When a jump is taken. -/
inductive Condition where
  | always
  | ifNull
  | ifNonNull
deriving DecidableEq

/-
  What an instruction does.  A new object is known by the
  offset of the instruction that makes it.
-/
inductive Action where
  | push (l : Literal)
  | load (f : Family) (slot : Nat)
  | store (f : Family) (slot : Nat)
  | pop
  | pop2
  | dup
  | swap
  | new (offset : Nat) (name : String)
  | checkcast (name : String)
  | getstatic (field : MemberRef)
  | putstatic (field : MemberRef)
  | invoke (kind : CallKind) (method : MemberRef)
  | jump (c : Condition)
  | returnValue (f : Family)
  | returnVoid
  | throw

------------------------------------------------------------
-- Actions of Instructions
------------------------------------------------------------

/- The constant at an index as something that can be pushed. -/
def ConstantPool.literalAt?
    (p : ConstantPool)
    (i : UInt16) : Option Literal :=
  match p.get? i with
  | some (.integer n) => some (.int n)
  | some (.float x) => some (.float x)
  | some (.long n) => some (.long n)
  | some (.double x) => some (.double x)
  | some (.string value) => (p.textAt? value).map .string
  | some (.classRef name) => (p.textAt? name).map .classOf
  | _ => none

theorem ConstantPool.Within.literalAt?
    {p q : ConstantPool}
    (hWithin : p.Within q)
    {i : UInt16}
    {l : Literal}
    (hLiteral : p.literalAt? i = some l) :
    q.literalAt? i = some l := by
  unfold ConstantPool.literalAt? at hLiteral ⊢
  cases hGet : p.get? i with
  | none => simp [hGet] at hLiteral
  | some c =>
      rw [hGet] at hLiteral
      rw [hWithin i c hGet]
      cases c with
      | string value =>
          rcases Option.map_eq_some_iff.mp hLiteral with
            ⟨s, hText, rfl⟩
          simp [hWithin.textAt? hText]
      | classRef name =>
          rcases Option.map_eq_some_iff.mp hLiteral with
            ⟨s, hText, rfl⟩
          simp [hWithin.textAt? hText]
      | _ => exact hLiteral

namespace Instruction

/- The constant of so many slots that an instruction pushes. -/
def literal?
    (p : ConstantPool)
    (slots : Nat)
    (i : Instruction) : Option Literal :=
  (i.constant?.bind p.literalAt?).filter
    fun l => l.vtype.slots = slots

/- The class that an instruction names. -/
def class?
    (p : ConstantPool)
    (i : Instruction) : Option String :=
  i.constant?.bind p.classAt?

/- The member that an instruction names, of a sort that fits. -/
def member?
    (p : ConstantPool)
    (fits : MemberKind → Bool)
    (i : Instruction) : Option MemberRef :=
  (i.constant?.bind p.memberAt?).filter fun m => fits m.kind

/-
  What an instruction does.  Instructions that no method needs
  have no action.
-/
def action?
    (p : ConstantPool)
    (i : Instruction) : Option Action :=
  match i.opcode with
  | .aconstNull => some (.push .null)
  | .iconst k => some (.push (.int (.ofInt (k.val - 1))))
  | .lconst k => some (.push (.long (.ofNat k)))
  | .fconst k => some (.push (.float (.ofInt k)))
  | .dconst k => some (.push (.double (.ofInt k)))
  | .bipush =>
      i.operands.head?.map fun b =>
        .push (.int b.toInt8.toInt32)
  | .sipush =>
      i.word?.map fun w => .push (.int w.toInt16.toInt32)
  | .ldc => (i.literal? p 1).map .push
  | .ldcW => (i.literal? p 1).map .push
  | .ldc2W => (i.literal? p 2).map .push
  | .load f => i.slot?.map fun (slot, _) => .load f slot
  | .loadShort f slot => some (.load f slot)
  | .store f => i.slot?.map fun (slot, _) => .store f slot
  | .storeShort f slot => some (.store f slot)
  | .pop => some .pop
  | .pop2 => some .pop2
  | .dup => some .dup
  | .swap => some .swap
  | .goto => some (.jump .always)
  | .ifnull => some (.jump .ifNull)
  | .ifnonnull => some (.jump .ifNonNull)
  | .returnValue f => some (.returnValue f)
  | .returnVoid => some .returnVoid
  | .athrow => some .throw
  | .new => (i.class? p).map (.new i.offset)
  | .checkcast => (i.class? p).map .checkcast
  | .getstatic => (i.member? p (· == .field)).map .getstatic
  | .putstatic => (i.member? p (· == .field)).map .putstatic
  | .invokestatic =>
      (i.member? p (· != .field)).map (.invoke .static)
  | .invokevirtual =>
      (i.member? p (· != .field)).map (.invoke .virtual)
  | .invokespecial =>
      (i.member? p (· != .field)).map (.invoke .special)
  | .invokeinterface =>
      (i.member? p (· == .interfaceMethod)).map
        (.invoke .interface)
  | _ => none

variable {p q : ConstantPool} {i : Instruction}

theorem literal?_within
    (hWithin : p.Within q)
    {slots : Nat}
    {l : Literal}
    (hLiteral : i.literal? p slots = some l) :
    i.literal? q slots = some l := by
  simp only [literal?, Option.filter_eq_some_iff,
    Option.bind_eq_some_iff] at hLiteral ⊢
  rcases hLiteral with ⟨⟨index, hIndex, hAt⟩, hSlots⟩
  exact ⟨⟨index, hIndex, hWithin.literalAt? hAt⟩, hSlots⟩

theorem class?_within
    (hWithin : p.Within q)
    {name : String}
    (hClass : i.class? p = some name) :
    i.class? q = some name := by
  simp only [class?, Option.bind_eq_some_iff] at hClass ⊢
  rcases hClass with ⟨index, hIndex, hAt⟩
  exact ⟨index, hIndex, hWithin.classAt? hAt⟩

theorem member?_within
    (hWithin : p.Within q)
    {fits : MemberKind → Bool}
    {m : MemberRef}
    (hMember : i.member? p fits = some m) :
    i.member? q fits = some m := by
  simp only [member?, Option.filter_eq_some_iff,
    Option.bind_eq_some_iff] at hMember ⊢
  rcases hMember with ⟨⟨index, hIndex, hAt⟩, hFits⟩
  exact ⟨⟨index, hIndex, hWithin.memberAt? hAt⟩, hFits⟩

theorem map_stays
    {α β : Type}
    {o o' : Option α}
    {f : α → β}
    {b : β}
    (hStays : ∀ {x}, o = some x → o' = some x)
    (hMap : o.map f = some b) :
    o'.map f = some b := by
  rcases Option.map_eq_some_iff.mp hMap with ⟨x, hSome, rfl⟩
  rw [hStays hSome]
  rfl

/- An instruction goes on doing the same while the pool grows. -/
theorem action?_within
    (hWithin : p.Within q)
    {a : Action}
    (hAction : i.action? p = some a) :
    i.action? q = some a := by
  revert hAction
  unfold action?
  cases i.opcode with
  | ldc => exact map_stays (literal?_within hWithin)
  | ldcW => exact map_stays (literal?_within hWithin)
  | ldc2W => exact map_stays (literal?_within hWithin)
  | new => exact map_stays (class?_within hWithin)
  | checkcast => exact map_stays (class?_within hWithin)
  | getstatic => exact map_stays (member?_within hWithin)
  | putstatic => exact map_stays (member?_within hWithin)
  | invokestatic => exact map_stays (member?_within hWithin)
  | invokevirtual => exact map_stays (member?_within hWithin)
  | invokespecial => exact map_stays (member?_within hWithin)
  | invokeinterface => exact map_stays (member?_within hWithin)
  | _ => exact id

end Instruction

------------------------------------------------------------
-- What Checking Sees
------------------------------------------------------------

/- Slots of a field. -/
def MemberRef.fieldSlots?
    (m : MemberRef) : Option Nat :=
  (Ty.ofDescriptor m.descriptor).toOption.map Ty.slots

/- Slots of parameters and result of a method. -/
def MemberRef.callSlots?
    (m : MemberRef) : Option (Nat × Nat) :=
  (parseMethodDescriptor m.descriptor).toOption.map
    fun (params, result) => (Ty.totalSlots params, result.slots)

namespace Action

/- Slots that an action pops and pushes. -/
def effect? : Action → Option (Nat × Nat)
  | .push l => some (0, l.vtype.slots)
  | .load f _ => some (0, f.slots)
  | .store f _ => some (f.slots, 0)
  | .pop => some (1, 0)
  | .pop2 => some (2, 0)
  | .dup => some (1, 2)
  | .swap => some (2, 2)
  | .new _ _ => some (0, 1)
  | .checkcast _ => some (1, 1)
  | .getstatic m => m.fieldSlots?.map fun n => (0, n)
  | .putstatic m => m.fieldSlots?.map fun n => (n, 0)
  | .invoke .static m => m.callSlots?
  | .invoke _ m => m.callSlots?.map fun (n, r) => (n + 1, r)
  | .jump .always => some (0, 0)
  | .jump _ => some (1, 0)
  | .returnValue f => some (f.slots, 0)
  | .returnVoid => some (0, 0)
  | .throw => some (1, 0)

/- Slot and width of the local that an action uses. -/
def slot? : Action → Option (Nat × Nat)
  | .load f slot => some (slot, f.slots)
  | .store f slot => some (slot, f.slots)
  | _ => none

/- Actions that never go on with the next one. -/
def isTerminator : Action → Bool
  | .jump .always => true
  | .returnValue _ => true
  | .returnVoid => true
  | .throw => true
  | _ => false

/- Actions that may go somewhere else. -/
def isJump : Action → Bool
  | .jump _ => true
  | _ => false

end Action

namespace Instruction

variable {p : ConstantPool} {i : Instruction}

theorem fieldSlots?_of_member
    {fits : MemberKind → Bool}
    {m : MemberRef}
    (hMember : i.member? p fits = some m) :
    i.fieldSlots? p = m.fieldSlots? := by
  simp only [member?, Option.filter_eq_some_iff,
    Option.bind_eq_some_iff] at hMember
  rcases hMember with ⟨⟨index, hIndex, hAt⟩, _⟩
  rw [fieldSlots?, MemberRef.fieldSlots?, hIndex, Option.map_eq_bind]
  simp only [Option.bind_eq_bind, Option.bind_some, hAt]
  rfl

theorem callSlots?_of_member
    {fits : MemberKind → Bool}
    {m : MemberRef}
    (hMember : i.member? p fits = some m) :
    i.callSlots? p = m.callSlots? := by
  simp only [member?, Option.filter_eq_some_iff,
    Option.bind_eq_some_iff] at hMember
  rcases hMember with ⟨⟨index, hIndex, hAt⟩, _⟩
  rw [callSlots?, MemberRef.callSlots?, hIndex, Option.map_eq_bind]
  simp only [Option.bind_eq_bind, Option.bind_some, hAt]
  rfl

theorem slots_of_literal
    {slots : Nat}
    {l : Literal}
    (hLiteral : i.literal? p slots = some l) :
    l.vtype.slots = slots := by
  simpa using (Option.filter_eq_some_iff.mp hLiteral).2

/-
  An instruction pops and pushes what its action does.  For
  most actions their operands do not matter.
-/
theorem effect?_of_action
    {a : Action}
    (hAction : i.action? p = some a) :
    i.effect? p = a.effect? := by
  have hAny :
      ∀ {α : Type} {o : Option α} {make : α → Action}
        {e : Option (Nat × Nat)},
        (∀ x, (make x).effect? = e) → o.map make = some a →
          e = a.effect? := by
    intro α o make e hMake hMap
    rcases Option.map_eq_some_iff.mp hMap with ⟨x, _, rfl⟩
    exact (hMake x).symm
  have hLiteral :
      ∀ {slots : Nat}, (i.literal? p slots).map .push = some a →
        some (0, slots) = a.effect? := by
    intro slots hMap
    rcases Option.map_eq_some_iff.mp hMap with ⟨l, hl, rfl⟩
    simp [Action.effect?, slots_of_literal hl]
  have hField :
      ∀ {fits : MemberKind → Bool} {make : MemberRef → Action}
        {g : Nat → Nat × Nat},
        (∀ m, (make m).effect? = m.fieldSlots?.map g) →
        (i.member? p fits).map make = some a →
        (i.fieldSlots? p).map g = a.effect? := by
    intro fits make g hMake hMap
    rcases Option.map_eq_some_iff.mp hMap with ⟨m, hm, rfl⟩
    rw [fieldSlots?_of_member hm, hMake]
  have hCall :
      ∀ {fits : MemberKind → Bool} {make : MemberRef → Action}
        {g : Nat × Nat → Nat × Nat},
        (∀ m, (make m).effect? = m.callSlots?.map g) →
        (i.member? p fits).map make = some a →
        (i.callSlots? p).map g = a.effect? := by
    intro fits make g hMake hMap
    rcases Option.map_eq_some_iff.mp hMap with ⟨m, hm, rfl⟩
    rw [callSlots?_of_member hm, hMake]
  revert hAction
  unfold action? effect?
  cases i.opcode with
  | bipush => exact hAny fun _ => rfl
  | sipush => exact hAny fun _ => rfl
  | ldc => exact hLiteral
  | ldcW => exact hLiteral
  | ldc2W => exact hLiteral
  | load f => exact hAny fun _ => rfl
  | store f => exact hAny fun _ => rfl
  | new => exact hAny fun _ => rfl
  | checkcast => exact hAny fun _ => rfl
  | getstatic => exact hField fun _ => rfl
  | putstatic => exact hField fun _ => rfl
  | invokestatic =>
      intro hSome
      have hSlots := hCall (g := id)
        (fun m => by simp [Action.effect?]) hSome
      simpa using hSlots
  | invokevirtual => exact hCall fun _ => rfl
  | invokespecial => exact hCall fun _ => rfl
  | invokeinterface => exact hCall fun _ => rfl
  | _ =>
      intro hSome
      cases hSome <;> rfl

/- An instruction ends and jumps as its action does. -/
theorem isTerminator_of_action
    {a : Action}
    (hAction : i.action? p = some a) :
    i.opcode.isTerminator = a.isTerminator ∧
      i.opcode.isBranch = a.isJump := by
  have hNeither :
      ∀ {α : Type} {o : Option α} {make : α → Action},
        (∀ x, (make x).isTerminator = false ∧
          (make x).isJump = false) →
        o.map make = some a →
        false = a.isTerminator ∧ false = a.isJump := by
    intro α o make hMake hMap
    rcases Option.map_eq_some_iff.mp hMap with ⟨x, _, rfl⟩
    exact ⟨(hMake x).1.symm, (hMake x).2.symm⟩
  revert hAction
  unfold action?
  cases i.opcode with
  | bipush => exact hNeither fun _ => ⟨rfl, rfl⟩
  | sipush => exact hNeither fun _ => ⟨rfl, rfl⟩
  | ldc => exact hNeither fun _ => ⟨rfl, rfl⟩
  | ldcW => exact hNeither fun _ => ⟨rfl, rfl⟩
  | ldc2W => exact hNeither fun _ => ⟨rfl, rfl⟩
  | load f => exact hNeither fun _ => ⟨rfl, rfl⟩
  | store f => exact hNeither fun _ => ⟨rfl, rfl⟩
  | new => exact hNeither fun _ => ⟨rfl, rfl⟩
  | checkcast => exact hNeither fun _ => ⟨rfl, rfl⟩
  | getstatic => exact hNeither fun _ => ⟨rfl, rfl⟩
  | putstatic => exact hNeither fun _ => ⟨rfl, rfl⟩
  | invokestatic => exact hNeither fun _ => ⟨rfl, rfl⟩
  | invokevirtual => exact hNeither fun _ => ⟨rfl, rfl⟩
  | invokespecial => exact hNeither fun _ => ⟨rfl, rfl⟩
  | invokeinterface => exact hNeither fun _ => ⟨rfl, rfl⟩
  | _ =>
      intro hSome
      cases hSome <;> exact ⟨rfl, rfl⟩

------------------------------------------------------------
-- Operands
------------------------------------------------------------

theorem checkConstant_of_get?
    {index : UInt16}
    {c : Constant}
    (hIndex : i.constant? = some index)
    (hGet : p.get? index = some c)
    (hAccepts : acceptsConstant i.opcode c = true) :
    i.checkConstant p = .ok () := by
  simp [checkConstant, hIndex, hGet, hAccepts]

theorem checkConstant_of_literal
    {slots : Nat}
    {l : Literal}
    (hLiteral : i.literal? p slots = some l)
    (hAccepts : ∀ c : Constant, c.isLoadable ∧ slots = 1 ∨
      c.isWide ∧ slots = 2 → acceptsConstant i.opcode c = true) :
    i.checkConstant p = .ok () := by
  have hSlots := slots_of_literal hLiteral
  simp only [literal?, Option.filter_eq_some_iff,
    Option.bind_eq_some_iff] at hLiteral
  rcases hLiteral with ⟨⟨index, hIndex, hAt⟩, _⟩
  unfold ConstantPool.literalAt? at hAt
  cases hGet : p.get? index with
  | none => simp [hGet] at hAt
  | some c =>
      refine checkConstant_of_get? hIndex hGet (hAccepts c ?_)
      rw [hGet] at hAt
      subst hSlots
      cases c with
      | string value =>
          rcases Option.map_eq_some_iff.mp hAt with ⟨s, _, rfl⟩
          exact Or.inl ⟨rfl, rfl⟩
      | classRef name =>
          rcases Option.map_eq_some_iff.mp hAt with ⟨s, _, rfl⟩
          exact Or.inl ⟨rfl, rfl⟩
      | integer n => cases hAt; exact Or.inl ⟨rfl, rfl⟩
      | float x => cases hAt; exact Or.inl ⟨rfl, rfl⟩
      | long n => cases hAt; exact Or.inr ⟨rfl, rfl⟩
      | double x => cases hAt; exact Or.inr ⟨rfl, rfl⟩
      | _ => cases hAt

theorem checkConstant_of_class
    {name : String}
    (hClass : i.class? p = some name)
    (hAccepts : ∀ n, acceptsConstant i.opcode (.classRef n) = true) :
    i.checkConstant p = .ok () := by
  rcases Option.bind_eq_some_iff.mp hClass with
    ⟨index, hIndex, hAt⟩
  unfold ConstantPool.classAt? at hAt
  split at hAt
  case h_1 n hGet =>
      exact checkConstant_of_get? hIndex hGet (hAccepts n)
  case h_2 => cases hAt

theorem checkConstant_of_member
    {fits : MemberKind → Bool}
    {m : MemberRef}
    (hMember : i.member? p fits = some m)
    (hAccepts : ∀ kind owner pair, fits kind = true →
      acceptsConstant i.opcode (.member kind owner pair) = true) :
    i.checkConstant p = .ok () := by
  simp only [member?, Option.filter_eq_some_iff,
    Option.bind_eq_some_iff] at hMember
  rcases hMember with ⟨⟨index, hIndex, hAt⟩, hFits⟩
  unfold ConstantPool.memberAt? at hAt
  split at hAt
  case h_1 kind owner pair hGet =>
      refine checkConstant_of_get? hIndex hGet
        (hAccepts kind owner pair ?_)
      simp only [Option.bind_eq_bind, Option.bind_eq_some_iff]
        at hAt
      rcases hAt with ⟨_, _, _, _, hEq⟩
      cases hEq
      exact hFits
  case h_2 => cases hAt

/- An instruction with an action names a constant that fits. -/
theorem checkConstant_of_action
    {a : Action}
    (hAction : i.action? p = some a) :
    i.checkConstant p = .ok () := by
  have hNone :
      i.opcode ≠ .ldc → i.opcode.takesConstant = false →
        i.checkConstant p = .ok () := by
    intro hLdc hTakes
    simp [checkConstant, constant?, hLdc, hTakes]
  have hMember :
      ∀ {fits : MemberKind → Bool} {make : MemberRef → Action},
        (∀ kind owner pair, fits kind = true →
          acceptsConstant i.opcode (.member kind owner pair) =
            true) →
        (i.member? p fits).map make = some a →
        i.checkConstant p = .ok () := by
    intro fits make hAccepts hMap
    rcases Option.map_eq_some_iff.mp hMap with ⟨m, hm, _⟩
    exact checkConstant_of_member hm hAccepts
  have hField : ∀ kind owner pair, (kind == MemberKind.field) →
      acceptsConstant .getstatic (.member kind owner pair) ∧
      acceptsConstant .putstatic (.member kind owner pair) := by
    intro kind owner pair hKind
    rw [eq_of_beq hKind]
    exact ⟨rfl, rfl⟩
  revert hAction
  unfold action?
  cases hOp : i.opcode with
  | ldc =>
      intro hMap
      rcases Option.map_eq_some_iff.mp hMap with ⟨l, hl, _⟩
      refine checkConstant_of_literal hl fun c hc => ?_
      simpa [hOp, acceptsConstant] using hc
  | ldcW =>
      intro hMap
      rcases Option.map_eq_some_iff.mp hMap with ⟨l, hl, _⟩
      refine checkConstant_of_literal hl fun c hc => ?_
      simpa [hOp, acceptsConstant] using hc
  | ldc2W =>
      intro hMap
      rcases Option.map_eq_some_iff.mp hMap with ⟨l, hl, _⟩
      refine checkConstant_of_literal hl fun c hc => ?_
      simpa [hOp, acceptsConstant] using hc
  | new =>
      intro hMap
      rcases Option.map_eq_some_iff.mp hMap with ⟨n, hn, _⟩
      exact checkConstant_of_class hn fun _ => by rw [hOp]; rfl
  | checkcast =>
      intro hMap
      rcases Option.map_eq_some_iff.mp hMap with ⟨n, hn, _⟩
      exact checkConstant_of_class hn fun _ => by rw [hOp]; rfl
  | getstatic =>
      rw [hOp] at hMember
      exact hMember fun k o n hk => (hField k o n hk).1
  | putstatic =>
      rw [hOp] at hMember
      exact hMember fun k o n hk => (hField k o n hk).2
  | invokestatic =>
      rw [hOp] at hMember
      exact hMember fun _ _ _ hFits => hFits
  | invokevirtual =>
      rw [hOp] at hMember
      exact hMember fun _ _ _ hFits => hFits
  | invokespecial =>
      rw [hOp] at hMember
      exact hMember fun _ _ _ hFits => hFits
  | invokeinterface =>
      rw [hOp] at hMember
      refine hMember fun kind _ _ hFits => ?_
      rw [eq_of_beq hFits]
      rfl
  | getfield => exact nofun
  | putfield => exact nofun
  | instanceof => exact nofun
  | _ =>
      rw [hOp] at hNone
      exact fun _ => hNone nofun rfl

/- An instruction names the local that its action uses. -/
theorem slot?_of_action
    {a : Action}
    (hAction : i.action? p = some a) :
    i.slot? = a.slot? := by
  have hNone :
      i.opcode.shortSlot? = none → i.opcode.localFamily? = none →
        i.slot? = none := by
    intro hShort hFamily
    simp [slot?, hShort, hFamily]
  have hOther :
      ∀ {α : Type} {o : Option α} {make : α → Action},
        i.slot? = none → (∀ x, (make x).slot? = none) →
        o.map make = some a → i.slot? = a.slot? := by
    intro α o make hSlot hMake hMap
    rcases Option.map_eq_some_iff.mp hMap with ⟨x, _, rfl⟩
    rw [hSlot, hMake]
  have hLong :
      ∀ {f : Family} {make : Nat → Action},
        i.opcode.shortSlot? = none →
        i.opcode.localFamily? = some f →
        (∀ slot, (make slot).slot? = some (slot, f.slots)) →
        (i.slot?.map fun place => make place.1) = some a →
        i.slot? = a.slot? := by
    intro f make hShort hFamily hMake hMap
    rcases Option.map_eq_some_iff.mp hMap with
      ⟨⟨slot, width⟩, hSlot, rfl⟩
    rw [hMake, hSlot]
    simp only [slot?, hShort, hFamily] at hSlot
    split at hSlot
    · rcases Option.map_eq_some_iff.mp hSlot with ⟨w, _, hw⟩
      cases hw
      rfl
    · rcases Option.map_eq_some_iff.mp hSlot with ⟨b, _, hb⟩
      cases hb
      rfl
  revert hAction
  unfold action?
  cases hOp : i.opcode <;> rw [hOp] at hNone hLong
  case load f => exact hLong rfl rfl fun _ => rfl
  case store f => exact hLong rfl rfl fun _ => rfl
  case loadShort f slot =>
      intro hSome
      cases hSome
      simp [slot?, hOp, Opcode.shortSlot?, Action.slot?]
  case storeShort f slot =>
      intro hSome
      cases hSome
      simp [slot?, hOp, Opcode.shortSlot?, Action.slot?]
  case bipush => exact hOther (hNone rfl rfl) fun _ => rfl
  case sipush => exact hOther (hNone rfl rfl) fun _ => rfl
  case ldc => exact hOther (hNone rfl rfl) fun _ => rfl
  case ldcW => exact hOther (hNone rfl rfl) fun _ => rfl
  case ldc2W => exact hOther (hNone rfl rfl) fun _ => rfl
  case new => exact hOther (hNone rfl rfl) fun _ => rfl
  case checkcast => exact hOther (hNone rfl rfl) fun _ => rfl
  case getstatic => exact hOther (hNone rfl rfl) fun _ => rfl
  case putstatic => exact hOther (hNone rfl rfl) fun _ => rfl
  case invokestatic => exact hOther (hNone rfl rfl) fun _ => rfl
  case invokevirtual => exact hOther (hNone rfl rfl) fun _ => rfl
  case invokespecial => exact hOther (hNone rfl rfl) fun _ => rfl
  case invokeinterface => exact hOther (hNone rfl rfl) fun _ => rfl
  all_goals
    intro hSome
    cases hSome <;> exact hNone rfl rfl

/- An instruction with an action names a local in range. -/
theorem checkLocal_of_action
    {a : Action}
    {limit : UInt16}
    (hAction : i.action? p = some a)
    (hRange : ∀ slot width, a.slot? = some (slot, width) →
      slot + width ≤ limit.toNat) :
    i.checkLocal limit = .ok () := by
  unfold checkLocal
  rw [slot?_of_action hAction]
  cases hSlot : a.slot? with
  | none => rfl
  | some place => exact if_pos (hRange place.1 place.2 hSlot)

end Instruction

end Stratagem
