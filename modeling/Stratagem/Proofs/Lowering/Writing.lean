import Stratagem.Proofs.Assembly.Faults
import Stratagem.Proofs.Lowering.Execution
import Stratagem.Proofs.Lowering.Members
import Stratagem.Proofs.Lowering.Modesty

/-
  Classes of strategies are written whole.

  Whatever the names in a program are, the class that is made
  of a strategy has few parts, each of which can be written.
  So it is read back from its bytes as it was made.  Its third
  method is the one with the body, and the code of the others
  is known.

  Key definitions include:
    * `MethodDraft.Orderly`
    * `ClassDraft.Added`
    * `ClassDraft.Gains`
    * `Context.HoldsEval`
    * `Context.frontOutlines`
    * `Context.backOutlines`

  Main declarations:
    * `ClassDraft.Writable.method`
    * `Context.written_eval`
    * `Context.written_bridge`
    * `Context.written_outlines`
    * `Context.written_members`
-/

namespace Stratagem

open Jvm Emitter

------------------------------------------------------------
-- Methods
------------------------------------------------------------

/-
  A draft that was begun as another and has tables of a size
  that can be written.
-/
structure MethodDraft.Orderly
    (m₀ m : MethodDraft) : Prop where
  sound : m.Sound
  header : m.header = m₀.header
  grown : m₀.pool.Grown m.pool
  fewLabels : ∀ is, m.resolve = .ok is →
    4 * m.labels.size ≤ Instruction.sizes is
  entries : ∀ state ∈ m.labels.toList, ∀ entry,
    state.entry = some entry → entry.stack = []

section Orderly

variable {m₀ m m' : MethodDraft} {t : Ty} {u : Unit}
variable {as : List Action} {ts us : List Ty}

/- Without labels there is no table of frames. -/
theorem Wrote.orderly
    (hWrote : Wrote m₀ as ts m)
    (hNone : m₀.labels = #[]) :
    m₀.Orderly m := by
  have hLabels : m.labels = #[] := hWrote.1.labels.trans hNone
  refine ⟨hWrote.2, hWrote.1.header, hWrote.1.grown, ?_, ?_⟩
  · intro is _
    rw [hLabels]
    exact Nat.zero_le _
  · rw [hLabels]
    exact nofun

/- What is written from the start is the code. -/
theorem Wrote.spelled
    (hWrote : Wrote m₀ as ts m)
    (hBlank : m₀.Blank us) :
    ∃ points, Spelled m points ∧
      points.map CodePoint.action = as := by
  rcases hWrote.1.continues with ⟨points, hContinues, hActions, -⟩
  exact ⟨points, hBlank.spelled.continues hWrote.1.grown
    hWrote.1.header hWrote.1.labels hContinues, hActions⟩

theorem wrote_returnValue
    (hSound : m.Sound)
    (hRun : Yields (returnValue t) m u m') :
    Wrote m [returnAction t] [] m' :=
  ⟨emits_returnValue hRun,
    (safe_returnValue t).of_yields hRun hSound⟩

theorem returnAction_void :
    returnAction (.primitive .void) = .returnVoid := by
  rw [returnAction, beq_void]
  rfl

theorem returnAction_object
    (hObject : t.isPrimitive = false) :
    returnAction t = .returnValue .ref := by
  rw [returnAction, beq_void]
  cases t with
  | primitive p => cases hObject
  | _ => rfl

theorem wrote_returnVoid
    (hSound : m.Sound)
    (hRun : Yields (returnValue (.primitive .void)) m u m') :
    Wrote m [.returnVoid] [] m' := by
  rw [← returnAction_void]
  exact wrote_returnValue hSound hRun

theorem wrote_returnObject
    (hObject : t.isPrimitive = false)
    (hSound : m.Sound)
    (hRun : Yields (returnValue t) m u m') :
    Wrote m [.returnValue .ref] [] m' := by
  rw [← returnAction_object hObject]
  exact wrote_returnValue hSound hRun

theorem wrote_getstatic
    {owner name d : String}
    (hSound : m.Sound)
    (hText : t.descriptor = .ok d)
    (hRun : Yields (getstatic owner name t) m u m') :
    Wrote m [.getstatic (.ofField owner name d)] [] m' :=
  ⟨emits_getstatic hSound hText hRun,
    (safe_getstatic _ _ _).of_yields hRun hSound⟩

theorem wrote_putstatic
    {owner name d : String}
    (hSound : m.Sound)
    (hText : t.descriptor = .ok d)
    (hRun : Yields (putstatic owner name t) m u m') :
    Wrote m [.putstatic (.ofField owner name d)] [] m' :=
  ⟨emits_putstatic hSound hText hRun,
    (safe_putstatic _ _ _).of_yields hRun hSound⟩

/- Straight code behind code that is known. -/
theorem Underway.orderly
    {frame : MethodFrame}
    {s₀ : TypeState}
    {after : Option TypeState}
    (hUnder : Underway frame s₀ m₀ m after)
    (hWrote : Wrote m as ts m') :
    m₀.Orderly m' := by
  have hEmits := hWrote.1
  refine ⟨hWrote.2, hEmits.header.trans hUnder.header,
    hUnder.grown.trans hEmits.grown, ?_, ?_⟩
  · intro is hResolve
    rcases hUnder.chart.code with
      ⟨js, points, hResolve₁, hLaid, hEnd, hLinked, -⟩
    have hSpelled : Spelled m points :=
      ⟨js, hResolve₁, hLaid, hEnd, hLinked⟩
    rcases hEmits.continues with ⟨more, hContinues, -⟩
    rcases hSpelled.continues hEmits.grown hEmits.header
        hEmits.labels hContinues with ⟨ks, hSame, -, hAll, -⟩
    rw [hResolve] at hSame
    cases hSame
    have hFew := hUnder.chart.fewLabels
    have hBounds := hEmits.offset_bounds
    rw [hEmits.labels, ← hAll]
    omega
  · rw [hEmits.labels]
    exact hUnder.chart.entries

end Orderly

------------------------------------------------------------
-- Classes
------------------------------------------------------------

/- A class became another with one more method. -/
structure ClassDraft.Added
    (c : ClassDraft)
    (name : String)
    (member : Member)
    (c' : ClassDraft) : Prop where
  grown : c.pool.Grown c'.pool
  thisClass : c'.thisClass = c.thisClass
  fields : c'.fields = c.fields
  methods : c'.methods = c.methods.push member
  name : c'.pool.textAt? member.name = some name

/- A class became another with more methods, of outlines. -/
structure ClassDraft.Gains
    (c : ClassDraft)
    (os : List MethodOutline)
    (c' : ClassDraft) : Prop where
  grown : c.pool.Grown c'.pool
  thisClass : c'.thisClass = c.thisClass
  fields : c'.fields = c.fields
  methods : ∃ members,
    c'.methods.toList = c.methods.toList ++ members ∧
    List.Forall₂ (Member.Follows c'.pool) members os

namespace ClassDraft

variable {α : Type} {n : Nat} {c c' : ClassDraft} {access : UInt16}
variable {name superName : String} {signature : MethodSig}
variable {paramNames : List String} {m₀ m m' : MethodDraft}
variable {member : Member} {body : Assembling α} {a : α}

/- A method begins with its parameters, whatever it is called. -/
theorem begun_method
    (superName : String)
    (hPool : c.pool.Sound)
    (hParams : ∀ t ∈ signature.params, t.isValue = true)
    (hMethod : c.method access name signature paramNames = .ok m₀) :
    Begun c superName access name signature
      { className := c.name, superName
        result := signature.result } m₀ :=
  ⟨blank_method hPool hParams hMethod, hParams,
    (header_method hMethod).2.2.1, rfl, rfl, rfl, rfl⟩

theorem Gains.refl
    (c : ClassDraft) :
    c.Gains [] c :=
  ⟨.refl _, rfl, rfl, [], (List.append_nil _).symm, .nil⟩

theorem Gains.trans
    {c₁ : ClassDraft}
    {os ps : List MethodOutline}
    (hFirst : c.Gains os c₁)
    (hNext : c₁.Gains ps c') :
    c.Gains (os ++ ps) c' := by
  rcases hFirst.methods with ⟨front, hFront, hOutlines⟩
  rcases hNext.methods with ⟨back, hBack, hOutlines'⟩
  refine ⟨hFirst.grown.trans hNext.grown,
    hNext.thisClass.trans hFirst.thisClass,
    hNext.fields.trans hFirst.fields, front ++ back, ?_, ?_⟩
  · rw [hBack, hFront, List.append_assoc]
  · have hKept := hOutlines.imp fun _ _ hFollows =>
      hFollows.grown hNext.grown
    exact List.rel_append hKept hOutlines'

theorem Added.gains
    {o : MethodOutline}
    (hAdded : c.Added name member c')
    (hFollows : member.Follows c'.pool o) :
    c.Gains [o] c' := by
  refine ⟨hAdded.grown, hAdded.thisClass, hAdded.fields, [member],
    ?_, .cons hFollows .nil⟩
  rw [hAdded.methods, Array.toList_push]

namespace Writable

/- A method that was finished is one more of its class. -/
theorem method
    (hWritable : c.Writable n)
    (hMethod : c.method access name signature paramNames = .ok m₀)
    (hOrderly : m₀.Orderly m)
    (hFinish : Yields MethodDraft.finish m member m')
    (hClose : Yields (Drafting.close m' (.ok member)) c () c') :
    c'.Writable (n + 1) ∧ c.Added name member c' ∧
      m.pool.Grown c'.pool ∧
      ∃ is, m.resolve = .ok is ∧
        member.Holds m (is.flatMap Instruction.encode) c'.pool := by
  rcases header_method hMethod with ⟨-, -, -, hName, hPool⟩
  rcases MethodDraft.finish_holds hOrderly.sound hOrderly.fewLabels
      hOrderly.entries hFinish with
    ⟨is, hResolve, hGrown, hHolds⟩
  have hAll : c.pool.Grown m'.pool := by
    rw [← hPool]
    exact hOrderly.grown.trans hGrown
  rcases hWritable.close hAll hHolds.writable hClose with
    ⟨hWritable', rfl⟩
  have hSame := hHolds.name
  rw [header_name hOrderly.header, hName] at hSame
  exact ⟨hWritable', ⟨hAll, rfl, rfl, rfl, hSame⟩, hGrown, is,
    hResolve, hHolds⟩

/-
  The same for a method whose code is known.  It is called
  what its draft was called in the beginning.
-/
theorem plainMethod
    {descriptor : String}
    {as : List Action}
    (superName : String)
    (hWritable : c.Writable n)
    (hParams : ∀ t ∈ signature.params, t.isValue = true)
    (hText : signature.descriptor = .ok descriptor)
    (hBody : ∀ frame m₀ m,
      Begun c superName access name signature frame m₀ →
      Gives body m₀ a m → Wrote m₀ as [] m)
    (hRun : Gives
      (Generating.method access name signature paramNames body) c a
      c') :
    c'.Writable (n + 1) ∧
      c.Gains [{ access, name, descriptor, actions := as }] c' := by
  rcases gives_method hRun with
    ⟨m₀, m, member, m', hMethod, hGives, hFinish, hClose⟩
  have hBegun :=
    begun_method superName hWritable.pool hParams hMethod
  have hWrote := hBody _ m₀ m hBegun hGives
  rcases hWritable.method hMethod
      (hWrote.orderly hBegun.blank.labels) hFinish hClose with
    ⟨hWritable', hAdded, hGrown, is, hResolve, hHolds⟩
  refine ⟨hWritable', hAdded.gains ?_⟩
  rcases hWrote.spelled hBegun.blank with
    ⟨points, hSpelled, rfl⟩
  refine ⟨m, points, is, hSpelled, hResolve, hGrown, hHolds, ?_⟩
  rcases header_method hMethod with
    ⟨hText', -, hAccess, hName, -⟩
  have hHeader := hWrote.1.header
  simp only [MethodDraft.header, Prod.mk.injEq] at hHeader
  rw [hText] at hText'
  cases hText'
  rw [hHeader.2.2.1, hHeader.2.2.2.1, hHeader.2.2.2.2.1, hAccess,
    hName]

/- And for one without parameters. -/
theorem simpleMethod
    {result : Ty}
    {body : Emitter Unit}
    {u : Unit}
    {descriptor : String}
    {as : List Action}
    (superName : String)
    (hWritable : c.Writable n)
    (hText : MethodSig.descriptor { result, params := [] } =
      .ok descriptor)
    (hBody : ∀ frame m₀ m,
      Begun c superName access name { result, params := [] } frame
        m₀ →
      Yields body m₀ u m → Wrote m₀ as [] m)
    (hRun : Gives
      (Generating.simpleMethod access name { result, params := [] }
        body) c u c') :
    c'.Writable (n + 1) ∧
      c.Gains [{ access, name, descriptor, actions := as }] c' := by
  refine hWritable.plainMethod superName
    (fun t hIn => absurd hIn List.not_mem_nil) hText ?_ hRun
  intro frame m₀ m hBegun hGives
  exact hBody frame m₀ m hBegun (gives_emit.mp hGives)

end Writable

end ClassDraft

------------------------------------------------------------
-- Outlines of Members
------------------------------------------------------------

namespace Context

/- The field that holds the one object of a class. -/
def instanceRef
    (owner text : String) : MemberRef :=
  .ofField owner instanceField text

/- The constructor calls that of the class above. -/
def constructorOutline : MethodOutline where
  access := Access.isPrivate
  name := "<init>"
  descriptor := "()V"
  actions :=
    [.load .ref 0,
      .invoke .special (.ofCall .special superClass "<init>" "()V"),
      .returnVoid]

/- The field is read and given. -/
def getInstanceOutline
    (owner text : String)
    (ty : Ty) : MethodOutline where
  access := Access.isPublic ||| staticFlag ||| Access.isFinal
  name := "getInstance"
  descriptor := "()" ++ text
  actions := [.getstatic (instanceRef owner text), returnAction ty]

/- The one object is made and put into the field. -/
def staticInitOutline
    (owner text : String) : MethodOutline where
  access := staticFlag
  name := "<clinit>"
  descriptor := "()V"
  actions :=
    [.new 0 owner, .dup,
      .invoke .special (.ofCall .special owner "<init>" "()V"),
      .putstatic (instanceRef owner text), .returnVoid]

def getNameOutline
    (text : String) : MethodOutline where
  access := Access.isPublic
  name := "getName"
  descriptor := "()Ljava/lang/String;"
  actions := [.push (.string text), .returnValue .ref]

/- The name is put in front of brackets. -/
def toStringOutline
    (owner : String) : MethodOutline :=
  let builder := "java/lang/StringBuilder"
  let append : MemberRef := .ofCall .virtual builder "append"
    "(Ljava/lang/String;)Ljava/lang/StringBuilder;"
  { access := Access.isPublic
    name := "toString"
    descriptor := "()Ljava/lang/String;"
    actions :=
      [.new 0 builder, .dup,
        .invoke .special (.ofCall .special builder "<init>" "()V"),
        .load .ref 0,
        .invoke .virtual
          (.ofCall .virtual owner "getName" "()Ljava/lang/String;"),
        .invoke .virtual append, .push (.string "(..)"),
        .invoke .virtual append,
        .invoke .virtual
          (.ofCall .virtual builder "toString"
            "()Ljava/lang/String;"),
        .returnValue .ref] }

/- The call goes on to the method that holds the body. -/
def bridgeOutline
    (owner typed erased : String)
    (signature : MethodSig) : MethodOutline where
  access := Access.isPublic ||| Access.isBridge |||
    Access.isSynthetic
  name := "eval"
  descriptor := erased
  actions :=
    forwardActions (.ofCall .virtual owner "eval" typed)
      signature.params signature.result

/- The methods in front of the one that holds the body. -/
def frontOutlines
    (owner text : String)
    (ty : Ty) : List MethodOutline :=
  [constructorOutline, getInstanceOutline owner text ty]

/- The methods behind it. -/
def backOutlines
    (owner text name typed erased : String)
    (signature : MethodSig) : List MethodOutline :=
  (if erased = typed then []
    else [bridgeOutline owner typed erased signature]) ++
  [getNameOutline name, toStringOutline owner,
    staticInitOutline owner text]

------------------------------------------------------------
-- Members
------------------------------------------------------------

variable {owner text : String} {n : Nat} {d d' : ClassDraft}
variable {u : Unit} {ty : Ty}

theorem descriptor_voidSignature :
    voidSignature.descriptor = .ok "()V" := by
  rfl

theorem descriptor_stringSignature :
    stringSignature.descriptor = .ok "()Ljava/lang/String;" := by
  rfl

theorem descriptor_getter
    (hText : ty.descriptor = .ok text) :
    MethodSig.descriptor { result := ty, params := [] } =
      .ok ("()" ++ text) := by
  simp only [MethodSig.descriptor, hText]
  rfl

theorem written_constructor
    (hWritable : d.Writable n)
    (hRun : Gives writeConstructor d u d') :
    d'.Writable (n + 1) ∧ d.Gains [constructorOutline] d' := by
  refine hWritable.simpleMethod superClass
    descriptor_voidSignature ?_ hRun
  intro frame m₀ m hBegun hBody
  simp only [yields_bind] at hBody
  rcases hBody with ⟨_, m₁, hThis, _, m₂, hCall, hReturn⟩
  have hOne := wrote_loadThis hBegun.blank.sound
    (by rw [hBegun.types_cons rfl]; rfl) (hBegun.isStatic rfl) hThis
  have hTwo := hOne.trans (wrote_invoke hOne.2 hCall)
  exact hTwo.trans (wrote_returnVoid hTwo.2 hReturn)

theorem written_getInstance
    (hText : ty.descriptor = .ok text)
    (hWritable : d.Writable n)
    (hRun : Gives (writeGetInstance owner ty) d u d') :
    d'.Writable (n + 1) ∧
      d.Gains [getInstanceOutline owner text ty] d' := by
  refine hWritable.simpleMethod superClass
    (descriptor_getter hText) ?_ hRun
  intro frame m₀ m hBegun hBody
  simp only [yields_bind] at hBody
  rcases hBody with ⟨_, m₁, hGet, hReturn⟩
  have hOne := wrote_getstatic hBegun.blank.sound hText hGet
  exact hOne.trans (wrote_returnValue hOne.2 hReturn)

theorem written_staticInit
    (hText : ty.descriptor = .ok text)
    (hWritable : d.Writable n)
    (hRun : Gives (writeStaticInit owner ty) d u d') :
    d'.Writable (n + 1) ∧
      d.Gains [staticInitOutline owner text] d' := by
  refine hWritable.simpleMethod superClass
    descriptor_voidSignature ?_ hRun
  intro frame m₀ m hBegun hBody
  simp only [yields_bind] at hBody
  rcases hBody with ⟨_, m₁, hNew, _, m₂, hDup, _, m₃, hCall, _, m₄,
    hPut, hReturn⟩
  have hMade := wrote_new hBegun.blank.sound hNew hDup hCall
  rw [hBegun.blank.offset] at hMade
  have hStored := hMade.trans
    (wrote_putstatic hMade.2 hText hPut)
  exact hStored.trans (wrote_returnVoid hStored.2 hReturn)

theorem written_getName
    {name : String}
    (hWritable : d.Writable n)
    (hRun : Gives (writeGetName name) d u d') :
    d'.Writable (n + 1) ∧ d.Gains [getNameOutline name] d' := by
  refine hWritable.simpleMethod superClass
    descriptor_stringSignature ?_ hRun
  intro frame m₀ m hBegun hBody
  simp only [yields_bind] at hBody
  rcases hBody with ⟨_, m₁, hText, hReturn⟩
  have hOne := wrote_ldcString hBegun.blank.sound hText
  exact hOne.trans (wrote_returnObject rfl hOne.2 hReturn)

theorem written_toString
    (hWritable : d.Writable n)
    (hRun : Gives (writeToString owner) d u d') :
    d'.Writable (n + 1) ∧ d.Gains [toStringOutline owner] d' := by
  refine hWritable.simpleMethod superClass
    descriptor_stringSignature ?_ hRun
  intro frame m₀ m hBegun hBody
  simp only [yields_bind] at hBody
  rcases hBody with ⟨_, m₁, hNew, _, m₂, hDup, _, m₃, hCall, _, m₄,
    hThis, _, m₅, hName, _, m₆, hFirst, _, m₇, hText, _, m₈,
    hSecond, _, m₉, hString, hReturn⟩
  have h₃ := wrote_new hBegun.blank.sound hNew hDup hCall
  rw [hBegun.blank.offset] at h₃
  have h₄ := h₃.trans (wrote_loadThis h₃.2
    (by rw [h₃.types_eq, hBegun.types_cons rfl]; rfl)
    (by rw [h₃.isStatic_eq]; exact hBegun.isStatic rfl) hThis)
  have h₅ := h₄.trans (wrote_invoke h₄.2 hName)
  have h₆ := h₅.trans (wrote_invoke h₅.2 hFirst)
  have h₇ := h₆.trans (wrote_ldcString h₆.2 hText)
  have h₈ := h₇.trans (wrote_invoke h₇.2 hSecond)
  have h₉ := h₈.trans (wrote_invoke h₈.2 hString)
  exact h₉.trans (wrote_returnObject rfl h₉.2 hReturn)

variable {c : Context} {signature : MethodSig}

/- The names of the parameters, that of the context first. -/
def evalNames
    (definition : StrategyDef) : List String :=
  "ctx" :: definition.paramNames ++ [definition.input]

/-
  A member that holds the method with the body.  The checks
  come first, and what follows them is straight code that
  stores nothing.
-/
def HoldsEval
    (className : String)
    (names : List String)
    (signature : MethodSig)
    (p : ConstantPool)
    (member : Member) : Prop :=
  ∃ d frame m₀ m₁ m as ts is,
    Begun d superClass Access.isPublic "eval" signature frame m₀ ∧
    signature.descriptor = .ok m₀.descriptor ∧
    Gives (nullChecks className 0 (names.zip signature.params)) m₀
      () m₁ ∧
    Wrote m₁ as ts m ∧
    as ≠ [] ∧
    Modest as ∧
    m.header = m₀.header ∧
    m.resolve = .ok is ∧
    m.pool.Grown p ∧
    member.Holds m (is.flatMap Instruction.encode) p

theorem HoldsEval.grown
    {className : String}
    {names : List String}
    {p q : ConstantPool}
    {member : Member}
    (hHolds : HoldsEval className names signature p member)
    (hGrown : p.Grown q) :
    HoldsEval className names signature q member := by
  rcases hHolds with ⟨d, frame, m₀, m₁, m, as, ts, is, hBegun, hText,
    hChecks, hWrote, hSome, hModest, hHeader, hResolve, hPool,
    hMember⟩
  exact ⟨d, frame, m₀, m₁, m, as, ts, is, hBegun, hText, hChecks,
    hWrote, hSome, hModest, hHeader, hResolve, hPool.trans hGrown,
    hMember.within hGrown.within⟩

theorem written_eval
    {decl : StrategyDecl}
    {definition : StrategyDef}
    (hWritable : d.Writable n)
    (hRun : Gives (c.writeEval decl definition ty) d signature
      d') :
    c.evalSignature decl.ty = .ok signature ∧
      d'.Writable (n + 1) ∧
      ∃ member, d.Added "eval" member d' ∧
        HoldsEval ty.display (evalNames definition) signature
          d'.pool member := by
  simp only [writeEval, gives_bind, gives_liftExcept, gives_pure]
    at hRun
  rcases hRun with ⟨_, d, ⟨hSignature, rfl⟩, _, _, hMethod, rfl,
    rfl⟩
  rcases gives_method hMethod with
    ⟨m₀, m, member, m', hDraft, hBody, hFinish, hClose⟩
  have hBegun := ClassDraft.begun_method superClass hWritable.pool
    (isValue_of_evalSignature hSignature) hDraft
  simp only [gives_bind, gives_parameter, gives_emit] at hBody
  rcases hBody with ⟨_, m₁, hChecks, ctx, m₁, ⟨hCtx, rfl⟩, env,
    m₂, hEnv, result, m₃, hAssemble, _, m₄, hCoerce, hReturn⟩
  cases same_of_bindParams hEnv
  rcases underway_eval hBegun (evalSignature_parts hSignature).1
      hChecks hCtx with
    ⟨hUnder, -, hCtxTy⟩
  rcases assemble_code hUnder.sound hCtxTy hAssemble with
    ⟨as, us, hCode, hWrote⟩
  rcases coerce_code hWrote.2 hCoerce with ⟨bs, hCoerces, hWrote'⟩
  have hModest : Modest
      (as ++ bs ++ [returnAction signature.result]) := by
    refine (hCode.modest.append hCoerces.modest).append (.one ?_)
    unfold returnAction
    split <;> rfl
  have hAll := (hWrote.trans hWrote').trans
    (wrote_returnValue hWrote'.2 hReturn)
  have hOrderly := hUnder.orderly hAll
  rcases hWritable.method hDraft hOrderly hFinish hClose with
    ⟨hWritable', hAdded, hGrown, is, hResolve, hHolds⟩
  exact ⟨hSignature, hWritable', member, hAdded, d, _, m₀, m₁, m,
    _, _, is, hBegun, (ClassDraft.header_method hDraft).1, hChecks,
    hAll, by simp, hModest, hOrderly.header, hResolve, hGrown,
    hHolds⟩

/- Loading parameters leaves one value for each of them. -/
theorem exchanged_loadParams
    {m m' : MethodDraft}
    {position : Nat}
    {ts : List Ty}
    (hSound : m.Sound)
    (hObject : m.isStatic = false)
    (hRun : Gives (loadParams position ts) m u m')
    (hFault : m'.fault = none) :
    m.Exchanged 0 ts.length m' := by
  induction ts generalizing m position with
  | nil =>
      rcases gives_pure.mp hRun with ⟨-, rfl⟩
      exact .refl hFault
  | cons t ts ih =>
      simp only [loadParams, gives_bind, gives_parameter,
        gives_emit] at hRun
      rcases hRun with
        ⟨l, m, ⟨hFound, rfl⟩, _, m₁, hLoad, _, m₂, hUnbox, hRest⟩
      rcases index_of_parameter? hObject hFound with
        ⟨hIndex, held, hType⟩
      rw [← hIndex] at hType
      have hOne := wrote_load hSound hType hLoad
      have hTwo := hOne.trans (wrote_unbox hOne.2 hUnbox)
      have hThird := ih hTwo.2
        (by rw [hTwo.isStatic_eq]; exact hObject) hRest
      have hSecond := exchanged_unbox hUnbox hThird.fault
      have hFirst := exchanged_load hType hLoad hSecond.fault
      have hAll := (hFirst.trans hSecond).trans hThird
      simpa [Nat.add_comm] using hAll

/-
  The code of the method of the interface, from its start.  If
  no value was missing, what is called takes what was loaded.
-/
theorem bridge_body
    {access : UInt16}
    {frame : MethodFrame}
    {m₀ m : MethodDraft}
    {typed : String}
    {arity : Nat}
    (hBegun : Begun d superClass access "eval"
      (bridgeSignature arity) frame m₀)
    (hObject : (access &&& staticFlag != 0) = false)
    (hParams : ∀ t ∈ signature.params, t.isValue = true)
    (hTyped : signature.descriptor = .ok typed)
    (hRun : Gives (do
      Assembling.emit loadThis
      loadParams 0 signature.params
      Assembling.emit (invoke .virtual owner "eval" typed)
      Assembling.emit (box signature.result)
      Assembling.emit (returnValue Known.object)) m₀ u m) :
    Wrote m₀
        (forwardActions (.ofCall .virtual owner "eval" typed)
          signature.params signature.result) [] m ∧
      (m.fault = none → ∃ params result,
        parseMethodDescriptor typed = .ok (params, result) ∧
        params.length = signature.params.length) := by
  simp only [gives_bind, gives_emit] at hRun
  rcases hRun with ⟨_, m₁, hThis, _, m₂, hLoads, _, m₃, hCall, _,
    m₄, hBox, hReturn⟩
  have hTypes := hBegun.types_cons hObject
  have hType : m₀.types[0]? = some (.ofClass d.name) := by
    rw [hTypes]
    rfl
  have hOne := wrote_loadThis hBegun.blank.sound hType
    (hBegun.isStatic hObject) hThis
  have hObject₁ : m₁.isStatic = false := by
    rw [hOne.isStatic_eq]
    exact hBegun.isStatic hObject
  rcases loadParams_spec frame hOne.2 hObject₁
      (by
        rw [hOne.types_eq, hTypes]
        intro t hIn
        rcases List.mem_cons.mp hIn with rfl | hParam
        · rfl
        · rw [(List.mem_replicate.mp hParam).2]
          rfl) hParams hLoads with
    ⟨hTwo, -⟩
  have hThree := wrote_invoke hTwo.2 hCall
  have hFour := wrote_box hThree.2 hBox
  refine ⟨(((hOne.trans hTwo).trans hThree).trans hFour).trans
    (wrote_returnObject rfl hFour.2 hReturn), ?_⟩
  intro hFault
  have hBoxed := fault_of_returnValue hReturn hFault
  rcases exchanged_invoke hCall (fault_of_box hBox hBoxed) with
    ⟨params, result, hReads, hTaken⟩
  have hLoaded := exchanged_loadParams hOne.2 hObject₁ hLoads
    hTaken.fault
  have hReceiver := exchanged_loadThis hType
    (hBegun.isStatic hObject) hThis hLoaded.fault
  refine ⟨params, result, hReads, Nat.le_antisymm ?_ ?_⟩
  · have hEmpty : m₀.stack.length = 0 := by
      rw [hBegun.blank.stack]
      rfl
    have hEnough := hTaken.enough
    have hHeight := hLoaded.height
    have hHeight' := hReceiver.height
    change params.length + 1 ≤ _ at hEnough
    omega
  · exact MethodSig.length_le_of_parse hTyped hReads

/-
  The method of the interface is one more, if it is another
  than the method that holds the body.  It was finished, so no
  value was missing.
-/
theorem written_bridge
    {decl : StrategyDecl}
    (hParams : ∀ t ∈ signature.params, t.isValue = true)
    (hResult : signature.result.isValue = true)
    (hWritable : d.Writable n)
    (hRun : Gives (writeBridge decl owner signature) d u d') :
    ∃ typed erased,
      signature.descriptor = .ok typed ∧
      (bridgeSignature decl.ty.arity).descriptor = .ok erased ∧
      d'.Writable (n + 1) ∧
      (erased ≠ typed →
        (MemberRef.ofCall .virtual owner "eval" typed).exchange?
          .virtual = some (signature.params.length + 1, true)) ∧
      d.Gains
        (if erased = typed then []
          else [bridgeOutline owner typed erased signature]) d' := by
  unfold writeBridge at hRun
  simp only [gives_bind, gives_liftExcept, ofTypeError_eq_ok]
    at hRun
  rcases hRun with ⟨typed, d, ⟨hTyped, rfl⟩, erased, d,
    ⟨hErased, rfl⟩, hRun⟩
  refine ⟨typed, erased, hTyped, hErased, ?_⟩
  split at hRun
  case isTrue hSame =>
      rcases gives_pure.mp hRun with ⟨-, rfl⟩
      rw [if_pos hSame]
      exact ⟨{ hWritable with
        few := Nat.le_succ_of_le hWritable.few },
        fun hOther => absurd hSame hOther, .refl _⟩
  case isFalse hOther =>
      have hObjects : ∀ t ∈ (bridgeSignature decl.ty.arity).params,
          t.isValue = true := by
        intro t hIn
        rw [(List.mem_replicate.mp hIn).2]
        rfl
      rw [if_neg hOther]
      rcases hWritable.plainMethod superClass hObjects hErased
          (fun frame m₀ m hBegun hBody =>
            (bridge_body hBegun rfl hParams hTyped hBody).1) hRun
        with ⟨hWritable', hGains⟩
      refine ⟨hWritable', fun _ => ?_, hGains⟩
      rcases gives_method hRun with
        ⟨m₀, m, member, m', hMethod, hBody, hFinish, -⟩
      have hBegun := ClassDraft.begun_method superClass
        hWritable.pool hObjects hMethod
      rcases (bridge_body hBegun rfl hParams hTyped hBody).2
          (fault_of_finish hFinish) with
        ⟨params, result, hReads, hCount⟩
      have hGives : result.isVoid = false := by
        cases hVoid : result.isVoid with
        | false => rfl
        | true =>
            have hNone :=
              MethodSig.isVoid_of_parse hTyped hReads hVoid
            have hNot := bne_void
              (t := signature.result) (by rw [hResult]; rfl)
            rw [bne, beq_void, hNone, hResult] at hNot
            cases hNot
      simp [MemberRef.exchange?, MemberRef.ofCall, hReads, hCount,
        hGives, Except.toOption, CallKind.receivers]

/- What a class gets before its methods. -/
theorem members_of_beginning
    {interface text name : String}
    {access : UInt16}
    {d₁ d₂ d₃ : ClassDraft}
    (hInterface : Yields (Drafting.addInterface interface) d u d₁)
    (hSignature : Yields (Drafting.setSignature text) d₁ u d₂)
    (hField : Yields (Drafting.addField access name ty) d₂ u d₃) :
    d₃.methods = d.methods ∧ d₂.fields = d.fields := by
  simp only [Drafting.addInterface, Drafting.setSignature,
    Drafting.addField, yields_bind, Drafting.yields_pooled,
    yields_modify] at hInterface hSignature hField
  rcases hInterface with ⟨_, _, ⟨_, -, rfl⟩, rfl⟩
  rcases hSignature with ⟨_, _, ⟨_, -, rfl⟩, rfl⟩
  rcases hField with ⟨_, _, ⟨_, -, rfl⟩, rfl⟩
  dsimp only
  split <;> exact ⟨rfl, rfl⟩

/- A field that was added is called what it was to be called. -/
theorem called_of_addField
    {access : UInt16}
    {name : String}
    (hPool : d.pool.Sound)
    (hText : ty.descriptor = .ok text)
    (hRun : Yields (Drafting.addField access name ty) d u d') :
    ∃ f, d'.fields = d.fields.push f ∧
      f.Called d'.pool access name text := by
  simp only [Drafting.addField, yields_bind,
    Drafting.yields_pooled, yields_modify] at hRun
  rcases hRun with ⟨f, _, ⟨p, hParts, rfl⟩, rfl⟩
  refine ⟨f, rfl, ?_⟩
  unfold Drafting.fieldParts at hParts
  rw [hText] at hParts
  simp only [yields_bind, yields_pure] at hParts
  rcases hParts with
    ⟨i, p₁, hName, j, p₂, hDescriptor, as, p₃, hSigned, rfl, rfl⟩
  have hSound := ((Pooling.grows_text name).of_yields
    hName).sound hPool
  have hGrown := (Pooling.grows_text text).of_yields hDescriptor
  rcases signatures_spec hSigned with ⟨hGrown', -⟩
  exact ⟨rfl,
    (hGrown.trans hGrown').within.textAt?
      (Pooling.text_textAt? hPool.indexed hName),
    hGrown'.within.textAt?
      (Pooling.text_textAt? hSound.indexed hDescriptor)⟩

/-
  All members of a class.  In the beginning there are none;
  then there is one field, and the method with the body stands
  between methods whose code is known.
-/
theorem written_outlines
    {decl : StrategyDecl}
    {definition : StrategyDef}
    {interface : String}
    (hText : ty.descriptor = .ok text)
    (hFinished : d.Finished owner superClass 0)
    (hRun : Gives (c.writeMembers decl definition interface owner
      ty) d u d') :
    d'.Writable 10 ∧
      ∃ signature typed erased field member front back,
        c.evalSignature decl.ty = .ok signature ∧
        signature.descriptor = .ok typed ∧
        (bridgeSignature decl.ty.arity).descriptor = .ok erased ∧
        (erased ≠ typed →
          (MemberRef.ofCall .virtual owner "eval" typed).exchange?
            .virtual = some (signature.params.length + 1, true)) ∧
        d'.pool.classAt? d'.thisClass = some owner ∧
        d'.fields.toList = [field] ∧
        field.Called d'.pool
          (Access.isPrivate ||| staticFlag ||| Access.isFinal)
          instanceField text ∧
        d'.methods.toList = front ++ member :: back ∧
        List.Forall₂ (Member.Follows d'.pool) front
          (frontOutlines owner text ty) ∧
        d'.pool.textAt? member.name = some "eval" ∧
        HoldsEval ty.display (evalNames definition) signature
          d'.pool member ∧
        List.Forall₂ (Member.Follows d'.pool) back
          (backOutlines owner text decl.name.simple typed erased
            signature) := by
  simp only [writeMembers, gives_bind, gives_draft,
    gives_liftExcept] at hRun
  rcases hRun with ⟨_, d₁, hInterface, _, d₁, ⟨-, rfl⟩, _, d₂,
    hSignature, _, d₃, hField, _, d₄, hConstructor, _, d₅,
    hInstance, signature, d₆, hEval, _, d₇, hBridge, _, d₈, hName,
    _, d₉, hString, hInit⟩
  rcases members_of_beginning hInterface hSignature hField with
    ⟨hMethods₃, hFields₂⟩
  have hFew := hFinished.few
  have hNone : d.methods = #[] :=
    Array.eq_empty_of_size_eq_zero (by omega)
  have hNone' : d.fields = #[] :=
    Array.eq_empty_of_size_eq_zero (by omega)
  have hSet := (hFinished.addInterface hInterface).setSignature
    hSignature
  have hStart := hSet.addField hField
  rcases called_of_addField hSet.pool hText hField with
    ⟨field, hFields₃, hCalled⟩
  rcases written_constructor hStart.writable hConstructor with
    ⟨h₄, hFirst⟩
  rcases written_getInstance hText h₄ hInstance with
    ⟨h₅, hSecond⟩
  rcases written_eval h₅ hEval with
    ⟨hEvalSignature, h₆, member, hMember, hHolds⟩
  rcases evalSignature_parts hEvalSignature with
    ⟨-, -, -, _, hResult⟩
  rcases written_bridge (isValue_of_evalSignature hEvalSignature)
      (isValue_of_lower hResult) h₆ hBridge with
    ⟨typed, erased, hTyped, hErased, h₇, hCall, hSixth⟩
  rcases written_getName h₇ hName with ⟨h₈, hSeventh⟩
  rcases written_toString h₈ hString with ⟨h₉, hEighth⟩
  rcases written_staticInit hText h₉ hInit with ⟨h₁₀, hNinth⟩
  have hFront := hFirst.trans hSecond
  have hBack := hSixth.trans ((hSeventh.trans hEighth).trans hNinth)
  rcases hFront.methods with ⟨front, hFrontList, hFrontFollow⟩
  rcases hBack.methods with ⟨back, hBackList, hBackFollow⟩
  have hLater := hMember.grown.trans hBack.grown
  refine ⟨h₁₀, signature, typed, erased, field, member, front, back,
    hEvalSignature, hTyped, hErased, hCall, ?_, ?_, ?_, ?_, ?_,
    hBack.grown.within.textAt? hMember.name,
    hHolds.grown hBack.grown, hBackFollow⟩
  · rw [hBack.thisClass, hMember.thisClass, hFront.thisClass]
    exact (hFront.grown.trans hLater).within.classAt?
      hStart.thisClass
  · rw [hBack.fields, hMember.fields, hFront.fields, hFields₃,
      hFields₂, hNone']
    rfl
  · have hWithin := (hFront.grown.trans hLater).within
    exact ⟨hCalled.access, hWithin.textAt? hCalled.name,
      hWithin.textAt? hCalled.descriptor⟩
  · rw [hBackList, hMember.methods, Array.toList_push, hFrontList,
      hMethods₃, hNone]
    simp
  · exact hFrontFollow.imp fun _ _ hFollows => hFollows.grown hLater

/-
  The constructor and the method that gives the one object come
  before the method with the body.
-/
theorem written_members
    {decl : StrategyDecl}
    {definition : StrategyDef}
    {interface : String}
    (hText : ty.descriptor = .ok text)
    (hFinished : d.Finished owner superClass 0)
    (hRun : Gives (c.writeMembers decl definition interface owner
      ty) d u d') :
    d'.Writable 10 ∧
      ∃ signature first second member more,
        c.evalSignature decl.ty = .ok signature ∧
        d'.methods.toList = first :: second :: member :: more ∧
        d'.pool.textAt? first.name = some "<init>" ∧
        d'.pool.textAt? second.name = some "getInstance" ∧
        d'.pool.textAt? member.name = some "eval" ∧
        HoldsEval ty.display (evalNames definition) signature
          d'.pool member := by
  rcases written_outlines hText hFinished hRun with
    ⟨hWritable, signature, _, _, _, member, _, more, hSignature, -,
      -, -, -, -, -, hMethods, hFront, hName, hHolds, -⟩
  rcases hFront with _ | ⟨hFirst, _ | ⟨hSecond, _ | _⟩⟩
  exact ⟨hWritable, signature, _, _, member, more, hSignature,
    hMethods, hFirst.name, hSecond.name, hName, hHolds⟩

end Context

end Stratagem
