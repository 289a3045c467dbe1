import Stratagem.Assembly.ClassDraft
import Stratagem.Proofs.ClassFile.WellTyped

/-
  Classes under construction.

  A method under construction keeps what it was begun with,
  and a class under construction keeps its finished methods.
  The class file that it becomes in the end is read back as it
  is, passes the structural check, and is typed.

  Key definitions include:
    * `Underway`
    * `MethodIn`
    * `ClassDraft.Finished`
    * `ClassDraft.Writable`

  Main declarations:
    * `Underway.finish`
    * `ClassDraft.Writable.parse`
    * `ClassDraft.Finished.close`
    * `ClassDraft.Finished.verify`
    * `ClassDraft.Finished.typed`
-/

namespace Stratagem

open Jvm

------------------------------------------------------------
-- Methods
------------------------------------------------------------

/-
  A method that was begun as `m₀` has come to `m`, and its
  code so far ends in the state `after`, or not at all.
-/
structure Underway
    (frame : MethodFrame)
    (s₀ : TypeState)
    (m₀ m : MethodDraft)
    (after : Option TypeState) : Prop where
  chart : Charted frame s₀ m after
  header : m.header = m₀.header
  grown : m₀.pool.Grown m.pool

namespace Underway

variable {frame : MethodFrame} {s₀ s s' : TypeState}
variable {m₀ m m' : MethodDraft} {after : Option TypeState}
variable {as : List Action} {ts : List Ty}

/- A method without code. -/
theorem start
    (frame : MethodFrame)
    (hBlank : m.Blank ts)
    (hValues : ∀ t ∈ ts, t.isValue = true)
    (hEmpty : s₀.stack = []) :
    Underway frame s₀ m m (some s₀) := by
  refine ⟨⟨hBlank.sound, ?_, ?_, ?_, ?_⟩, rfl, .refl _⟩
  · intro s hStart
    cases hStart
    rw [hEmpty]
    refine ⟨?_, ?_, ?_, ?_, hBlank.held, ?_⟩
    · rw [hBlank.stack]
    · rw [hBlank.stack]
      exact nofun
    · rw [hBlank.depth]
      rfl
    · rw [hBlank.depth]
      exact Nat.zero_le _
    · rw [hBlank.types]
      exact hValues
  · rw [hBlank.labels, hBlank.offset]
    exact Nat.le_refl _
  · rw [hBlank.labels]
    exact nofun
  · rcases hBlank.spelled with
      ⟨is, hResolve, hLaid, hEnd, hLinked⟩
    refine ⟨is, [], hResolve, hLaid, hEnd, hLinked, ?_, nofun⟩
    rw [hBlank.offset]
    exact .nil frame _ _ _

/- Straight code goes on. -/
theorem write
    (hUnder : Underway frame s₀ m₀ m (some s))
    (hEmits : Emits m as ts m')
    (hSound : m'.Sound)
    (hPasses : Passes frame 65535 s as s') :
    Underway frame s₀ m₀ m' (some s') :=
  ⟨hUnder.chart.stretch hSound
      (hEmits.stretch (hUnder.chart.tracks s rfl) hPasses),
    hEmits.header.trans hUnder.header,
    hUnder.grown.trans hEmits.grown⟩

/- An action that never goes on ends the code. -/
theorem stop
    {a : Action}
    (hUnder : Underway frame s₀ m₀ m (some s))
    (hEmits : Emits m [a] ts m')
    (hSound : m'.Sound)
    (hCheck : a.check frame s = some s')
    (hLast : a.isTerminator = true)
    (hPlain : a.isJump = false) :
    Underway frame s₀ m₀ m' none :=
  ⟨hUnder.chart.stretch hSound
      (hEmits.lastStretch (hUnder.chart.tracks s rfl) hCheck hLast
        hPlain),
    hEmits.header.trans hUnder.header,
    hUnder.grown.trans hEmits.grown⟩

/- The finished method is what it was begun as. -/
theorem finish
    {member : Member}
    (hUnder : Underway frame s₀ m₀ m none)
    (hRun : Yields MethodDraft.finish m member m') :
    m₀.pool.Grown m'.pool ∧
      FinishedMethod frame s₀ m₀.name m₀.descriptor m₀.access
        m'.pool member := by
  rcases hUnder.chart.finish hRun with ⟨hGrown, hFinished⟩
  have hHeader := hUnder.header
  simp only [MethodDraft.header, Prod.mk.injEq] at hHeader
  rcases hHeader with ⟨-, -, hAccess, hName, hDescriptor, -⟩
  rw [hName, hDescriptor, hAccess] at hFinished
  exact ⟨hUnder.grown.trans hGrown, hFinished⟩

end Underway

------------------------------------------------------------
-- Classes
------------------------------------------------------------

/- A finished method that starts as its descriptor says. -/
def MethodIn
    (className superName : String)
    (p : ConstantPool)
    (m : Member) : Prop :=
  ∃ name descriptor params result,
    parseMethodDescriptor descriptor = .ok (params, result) ∧
    FinishedMethod { className, superName, result }
      (.entry className m.access name (params.map VType.ofTy))
      name descriptor m.access p m

theorem MethodIn.within
    {className superName : String}
    {p q : ConstantPool}
    {m : Member}
    (hMethod : MethodIn className superName p m)
    (hWithin : p.Within q) :
    MethodIn className superName q m := by
  rcases hMethod with
    ⟨name, descriptor, params, result, hReads, hFinished⟩
  exact ⟨name, descriptor, params, result, hReads,
    hFinished.within hWithin⟩

/-
  A class with a name and a super class that has few parts,
  all of which can be written, and whose methods are finished.
-/
structure ClassDraft.Finished
    (className superName : String)
    (count : Nat)
    (c : ClassDraft) : Prop where
  pool : c.pool.Sound
  name : c.name = className
  thisClass : c.pool.classAt? c.thisClass = some className
  superClass : c.pool.classAt? c.superClass = some superName
  few : c.interfaces.length + c.fields.size + c.methods.size +
    c.attributes.size ≤ count
  fields : ∀ m ∈ c.fields, AttributesWritable m.attributes
  attributes : ∀ a ∈ c.attributes, a.Writable
  methods : ∀ m ∈ c.methods,
    MethodIn className superName c.pool m

/- A class with few parts, all of which can be written. -/
structure ClassDraft.Writable
    (count : Nat)
    (c : ClassDraft) : Prop where
  pool : c.pool.Sound
  few : c.interfaces.length + c.fields.size + c.methods.size +
    c.attributes.size ≤ count
  fields : ∀ m ∈ c.fields, AttributesWritable m.attributes
  methods : ∀ m ∈ c.methods, AttributesWritable m.attributes
  attributes : ∀ a ∈ c.attributes, a.Writable

namespace Drafting

@[simp] theorem yields_pooled
    {α : Type}
    {x : Pooling α}
    {a : α}
    {c c' : ClassDraft} :
    Yields (pooled x) c a c' ↔
      ∃ p, Yields x c.pool a p ∧ c' = { c with pool := p } := by
  have hRun : outcomeOf (pooled x) c =
      ((outcomeOf x c.pool).1,
        { c with pool := (outcomeOf x c.pool).2 }) := rfl
  unfold Yields
  rw [hRun]
  rcases outcomeOf x c.pool with ⟨result, p⟩
  simp only [Prod.mk.injEq]
  constructor
  · rintro ⟨rfl, rfl⟩
    exact ⟨p, ⟨rfl, rfl⟩, rfl⟩
  · rintro ⟨q, ⟨rfl, rfl⟩, rfl⟩
    exact ⟨rfl, rfl⟩

end Drafting

namespace ClassDraft

namespace Writable

variable {n : Nat} {c c' : ClassDraft} {m : MethodDraft}
variable {member : Member} {u : Unit}

/- One more method that can be written. -/
theorem close
    (hWritable : c.Writable n)
    (hGrown : c.pool.Grown m.pool)
    (hMember : AttributesWritable member.attributes)
    (hRun : Yields (Drafting.close m (.ok member)) c u c') :
    c'.Writable (n + 1) ∧
      c' = { c with
        pool := m.pool, methods := c.methods.push member } := by
  unfold Drafting.close at hRun
  simp only [yields_bind, yields_modify] at hRun
  rcases hRun with ⟨_, _, rfl, rfl⟩
  have hFew := hWritable.few
  refine ⟨⟨hGrown.sound hWritable.pool, ?_, hWritable.fields, ?_,
    hWritable.attributes⟩, rfl⟩
  · simp only [Array.size_push]
    omega
  · intro f hf
    rcases Array.mem_push.mp hf with hOld | rfl
    · exact hWritable.methods f hOld
    · exact hMember

/- A class with few parts is read back as it is written. -/
theorem parse
    (hWritable : c.Writable n)
    (hFew : n ≤ 65535) :
    ClassFile.parse c.toClassFile.toBytes.toArray =
      .ok c.toClassFile := by
  have hParts := hWritable.few
  apply ClassFile.parse_toBytes
  refine ⟨hWritable.pool, ?_, ?_, ?_, ?_, ?_, ?_⟩
  · change c.interfaces.length ≤ 65535
    omega
  · change c.fields.toList.length ≤ 65535
    rw [Array.length_toList]
    omega
  · change c.methods.toList.length ≤ 65535
    rw [Array.length_toList]
    omega
  · intro m hIn
    rcases List.mem_append.mp hIn with hField | hMethod
    · exact hWritable.fields m (Array.mem_toList_iff.mp hField)
    · exact hWritable.methods m (Array.mem_toList_iff.mp hMethod)
  · change c.attributes.toList.length ≤ 65535
    rw [Array.length_toList]
    omega
  · intro a hIn
    exact hWritable.attributes a (Array.mem_toList_iff.mp hIn)

end Writable

/- A class without members. -/
theorem finished_start
    {version access : UInt16}
    {name superName : String}
    {c : ClassDraft}
    (hStart : start version access name superName = .ok c) :
    c.Finished name superName 0 := by
  let names : Pooling (UInt16 × UInt16) := do
    let thisClass ← Pooling.classRef name
    let superClass ← Pooling.classRef superName
    return (thisClass, superClass)
  have hRun : start version access name superName =
      match outcomeOf names {} with
      | (.error e, _) => .error e
      | (.ok (thisClass, superClass), pool) =>
          .ok { version, access, name, pool, thisClass,
                superClass } := rfl
  rw [hRun] at hStart
  rcases hNames : outcomeOf names {} with ⟨result, pool⟩
  rw [hNames] at hStart
  cases result with
  | error e => cases hStart
  | ok pair =>
      rcases pair with ⟨thisClass, superClass⟩
      cases hStart
      have hYields : Yields names {} (thisClass, superClass) pool :=
        hNames
      simp only [names, yields_bind, yields_pure, Prod.mk.injEq]
        at hYields
      rcases hYields with
        ⟨i, p, hThis, j, q, hSuper, ⟨rfl, rfl⟩, rfl⟩
      have hGrown := (Pooling.grows_classRef name).of_yields hThis
      have hGrown' :=
        (Pooling.grows_classRef superName).of_yields hSuper
      have hSound := hGrown.sound ConstantPool.sound_empty
      exact ⟨hGrown'.sound hSound, rfl,
        hGrown'.within.classAt?
          (Pooling.classRef_classAt?
            ConstantPool.sound_empty.indexed hThis),
        Pooling.classRef_classAt? hSound.indexed hSuper, Nat.le_refl 0,
        by simp, by simp, by simp⟩

namespace Finished

variable {className superName : String} {n : Nat}
variable {c c' : ClassDraft} {p : ConstantPool} {u : Unit}

/- More constants do no harm. -/
theorem grow
    (hFinished : c.Finished className superName n)
    (hGrown : c.pool.Grown p) :
    ({ c with pool := p } : ClassDraft).Finished className
      superName n :=
  ⟨hGrown.sound hFinished.pool, hFinished.name,
    hGrown.within.classAt? hFinished.thisClass,
    hGrown.within.classAt? hFinished.superClass, hFinished.few,
    hFinished.fields, hFinished.attributes,
    fun m hIn => (hFinished.methods m hIn).within hGrown.within⟩

theorem addInterface
    {name : String}
    (hFinished : c.Finished className superName n)
    (hRun : Yields (Drafting.addInterface name) c u c') :
    c'.Finished className superName (n + 1) := by
  simp only [Drafting.addInterface, yields_bind,
    Drafting.yields_pooled, yields_modify] at hRun
  rcases hRun with ⟨index, _, ⟨p, hPool, rfl⟩, rfl⟩
  have hGrow :=
    hFinished.grow ((Pooling.grows_classRef name).of_yields hPool)
  have hFew := hFinished.few
  split
  case isTrue => exact { hGrow with few := Nat.le_succ_of_le hFew }
  case isFalse =>
      refine { hGrow with few := ?_ }
      simp only [List.length_append, List.length_singleton]
      omega

theorem setSignature
    {signature : String}
    (hFinished : c.Finished className superName n)
    (hRun : Yields (Drafting.setSignature signature) c u c') :
    c'.Finished className superName (n + 1) := by
  simp only [Drafting.setSignature, yields_bind,
    Drafting.yields_pooled, yields_modify] at hRun
  rcases hRun with ⟨a, _, ⟨p, hPool, rfl⟩, rfl⟩
  have hGrow := hFinished.grow
    ((MethodDraft.grows_signatureAttribute _).of_yields hPool)
  have hFew := hFinished.few
  refine { hGrow with few := ?_, attributes := ?_ }
  · simp only [Array.size_push]
    omega
  · intro b hb
    rcases Array.mem_push.mp hb with hOld | rfl
    · exact hGrow.attributes b hOld
    · exact writable_signatureAttribute hPool

theorem addField
    {access : UInt16}
    {name : String}
    {ty : Ty}
    (hFinished : c.Finished className superName n)
    (hRun : Yields (Drafting.addField access name ty) c u c') :
    c'.Finished className superName (n + 1) := by
  simp only [Drafting.addField, yields_bind,
    Drafting.yields_pooled, yields_modify] at hRun
  rcases hRun with ⟨m, _, ⟨p, hPool, rfl⟩, rfl⟩
  have hParts : c.pool.Grown p ∧
      AttributesWritable m.attributes := by
    unfold Drafting.fieldParts at hPool
    rcases yields_bind.mp hPool with ⟨i, p₁, hName, hRest⟩
    have hGrown₁ := (Pooling.grows_text name).of_yields hName
    split at hRest
    case h_1 => exact absurd hRest yields_throw
    case h_2 text hText =>
        simp only [yields_bind, yields_pure] at hRest
        rcases hRest with
          ⟨j, p₂, hDescriptor, as, p₃, hSigned, rfl, rfl⟩
        have hGrown₂ :=
          (Pooling.grows_text text).of_yields hDescriptor
        rcases signatures_spec hSigned with
          ⟨hGrown₃, hLength, hEach⟩
        refine ⟨(hGrown₁.trans hGrown₂).trans hGrown₃, ?_, hEach⟩
        rw [hLength]
        split <;> simp
  have hGrow := hFinished.grow hParts.1
  have hFew := hFinished.few
  refine { hGrow with few := ?_, fields := ?_ }
  · simp only [Array.size_push]
    omega
  · intro f hf
    rcases Array.mem_push.mp hf with hOld | rfl
    · exact hGrow.fields f hOld
    · exact hParts.2

/- A finished method is one more. -/
theorem close
    {m : MethodDraft}
    {result : Except ClassFileError Member}
    (hFinished : c.Finished className superName n)
    (hGrown : c.pool.Grown m.pool)
    (hMethod : ∀ member, result = .ok member →
      MethodIn className superName m.pool member)
    (hRun : Yields (Drafting.close m result) c u c') :
    c'.Finished className superName (n + 1) := by
  unfold Drafting.close at hRun
  simp only [yields_bind, yields_modify] at hRun
  rcases hRun with ⟨_, _, rfl, hRun⟩
  have hGrow := hFinished.grow hGrown
  have hFew := hFinished.few
  cases result with
  | error e => exact absurd hRun yields_throw
  | ok member =>
      rw [yields_modify] at hRun
      subst hRun
      refine { hGrow with few := ?_, methods := ?_ }
      · simp only [Array.size_push]
        omega
      · intro f hf
        rcases Array.mem_push.mp hf with hOld | rfl
        · exact hGrow.methods f hOld
        · exact hMethod f rfl

/- Finished methods can be written. -/
theorem writable
    (hFinished : c.Finished className superName n) :
    c.Writable n := by
  refine ⟨hFinished.pool, hFinished.few, hFinished.fields, ?_,
    hFinished.attributes⟩
  intro m hIn
  rcases hFinished.methods m hIn with ⟨_, _, _, _, -, hDone⟩
  exact hDone.writable

/- It passes the structural check. -/
theorem verify
    (hFinished : c.Finished className superName n) :
    c.toClassFile.verify = .ok () := by
  have hThis : c.toClassFile.thisName? = some className :=
    hFinished.thisClass
  unfold ClassFile.verify
  rw [hThis, Option.isSome_some, if_pos rfl, forM_eq_ok_iff]
  intro m hIn
  rcases hFinished.methods m (Array.mem_toList_iff.mp hIn) with
    ⟨_, _, _, _, -, hDone⟩
  exact FinishedMethod.verified (c := c.toClassFile) hDone rfl

/- And the code of its methods is typed. -/
theorem typed
    (hFinished : c.Finished className superName n) :
    c.toClassFile.Typed := by
  intro m hIn
  rcases hFinished.methods m (Array.mem_toList_iff.mp hIn) with
    ⟨_, _, _, _, hReads, hDone⟩
  exact FinishedMethod.typed (c := c.toClassFile) hDone
    hFinished.thisClass hFinished.superClass hReads

end Finished

end ClassDraft

end Stratagem
