import Stratagem.Proofs.Lowering.Methods

/-
  The members of the class of a strategy.

  Each step of writing the class adds one finished method, so
  all methods of the class are finished in the end.

  Main declarations:
    * `Context.finished_constructor`
    * `Context.finished_eval`
    * `Context.finished_bridge`
    * `Context.finished_members`
    * `Context.generate_parts`
-/

namespace Stratagem

open Jvm Emitter

------------------------------------------------------------
-- Values
------------------------------------------------------------

section Values

variable {frame : MethodFrame} {t : Ty} {as : List Action}
variable {m m' : MethodDraft} {u : Unit}

/- A field is read as the type that it has. -/
theorem fieldType?_ofField
    {d : String}
    (owner name : String)
    (hLegible : t.Legible)
    (hValue : t.isValue = true)
    (hText : t.descriptor = .ok d) :
    ∃ w, (MemberRef.ofField owner name d).fieldType? = some w ∧
      VType.ofTy w = .ofTy t := by
  rcases hLegible.ofDescriptor hText with ⟨w, hRead, hSame, hTy⟩
  refine ⟨w, Option.filter_eq_some_iff.mpr ⟨?_, ?_⟩, hTy⟩
  · simp only [MemberRef.ofField, hRead]
    rfl
  · rw [hSame, hValue]

theorem pushes_getstatic
    {d : String}
    (s : TypeState)
    (owner name : String)
    (hLegible : t.Legible)
    (hValue : t.isValue = true)
    (hText : t.descriptor = .ok d)
    (hLow : s.height + 2 ≤ 65535) :
    Pushes frame s [.getstatic (.ofField owner name d)]
      [.ofTy t] (s.push (.ofTy t)) := by
  have hSlots := (VType.ofTy t).slots_le
  refine .one ?_ (by omega) rfl rfl
  rcases fieldType?_ofField owner name hLegible hValue hText with
    ⟨w, hType, hTy⟩
  rw [Action.check, hType, Option.map_some, hTy]

/- A method without parameters that gives a string. -/
theorem takes_text
    (owner name : String) :
    (MemberRef.ofCall .virtual owner name
      "()Ljava/lang/String;").Takes []
      (.object "java/lang/String") := by
  refine ⟨[], Known.string, ?_, rfl, rfl, ?_⟩
  · unfold MemberRef.callTypes? MemberRef.ofCall
    dsimp only
    rfl
  · rw [Known.string, VType.ofTy_ofClass]

/- The method that appends a string. -/
theorem takes_append :
    (MemberRef.ofCall .virtual "java/lang/StringBuilder" "append"
      "(Ljava/lang/String;)Ljava/lang/StringBuilder;").Takes
      [.object "java/lang/String"]
      (.object "java/lang/StringBuilder") := by
  refine ⟨[Known.string], .ofClass "java/lang/StringBuilder", ?_,
    ?_, rfl, VType.ofTy_ofClass _⟩
  · unfold MemberRef.callTypes? MemberRef.ofCall
    dsimp only
    rfl
  · rw [List.map_singleton, Known.string, VType.ofTy_ofClass]

theorem Wrote.isStatic_eq
    {ts : List Ty}
    (hWrote : Wrote m as ts m') :
    m'.isStatic = m.isStatic :=
  header_isStatic hWrote.1.header

theorem wrote_loadThis
    (hSound : m.Sound)
    (hType : m.types[0]? = some t)
    (hObject : m.isStatic = false)
    (hRun : Yields loadThis m u m') :
    Wrote m [.load (.ofTy t) 0] [] m' :=
  ⟨emits_loadThis hSound hType hObject hRun,
    safe_loadThis.of_yields hRun hSound⟩

theorem wrote_ldcString
    {text : String}
    (hSound : m.Sound)
    (hRun : Yields (ldcString text) m u m') :
    Wrote m [.push (.string text)] [] m' :=
  ⟨emits_ldcString hSound.pool.indexed hRun,
    (safe_ldcString _).of_yields hRun hSound⟩

end Values

section Receivers

variable {c : ClassDraft} {superName : String} {access : UInt16}
variable {name : String} {signature : MethodSig}
variable {frame : MethodFrame} {m : MethodDraft}

theorem Begun.isStatic
    (hBegun : Begun c superName access name signature frame m)
    (hObject : (access &&& staticFlag != 0) = false) :
    m.isStatic = false := by
  rw [MethodDraft.isStatic, hBegun.access]
  exact hObject

/- The receiver has the first local. -/
theorem Begun.types_cons
    (hBegun : Begun c superName access name signature frame m)
    (hObject : (access &&& staticFlag != 0) = false) :
    m.types = .ofClass c.name :: signature.params := by
  rw [hBegun.types, ClassDraft.receiver, hObject]
  rfl

end Receivers

namespace Context

variable {owner : String} {n : Nat} {d d' : ClassDraft} {u : Unit}

/- The class that every strategy class extends. -/
def superClass : String :=
  "java/lang/Object"

------------------------------------------------------------
-- The One Object
------------------------------------------------------------

/-
  The constructor.  The receiver becomes an object by the
  constructor that is called on it.
-/
theorem finished_constructor
    (hFinished : d.Finished owner superClass n)
    (hRun : Gives writeConstructor d u d') :
    d'.Finished owner superClass (n + 1) := by
  refine hFinished.simpleMethod (Ty.legible_primitive _) ?_ hRun
  intro frame m₀ m hBegun hBody
  simp only [yields_bind] at hBody
  rcases hBody with ⟨_, m₁, hThis, _, m₂, hCall, hReturn⟩
  have hUnder := hBegun.underway
  have hOne := wrote_loadThis hUnder.sound
    (by rw [hBegun.types_cons rfl]; rfl) (hBegun.isStatic rfl) hThis
  have hWrote := hOne.trans (wrote_invoke hOne.2 hCall)
  let s := Begun.entry d Access.isPrivate "<init>" voidSignature
  have hLoad : (Action.load .ref 0).check frame s =
      some (s.push .uninitThis) := rfl
  have hInit : (Action.invoke .special (.ofCall .special
      "java/lang/Object" "<init>" "()V")).check frame
        (s.push .uninitThis) =
      some (s.replace .uninitThis (.object frame.className)) := by
    have hConstruct : Action.construct frame "java/lang/Object"
        (s.push .uninitThis) =
          some (s.replace .uninitThis (.object frame.className)) :=
      if_pos (Or.inl hBegun.superName.symm)
    have hTypes : (MemberRef.ofCall .special "java/lang/Object"
        "<init>" "()V").callTypes? =
          some ([], .primitive .void) := rfl
    rw [Action.check, Action.call, hTypes]
    change (Action.construct frame "java/lang/Object"
      (s.push .uninitThis)).bind _ = _
    rw [hConstruct]
    rfl
  have hHeight : (s.replace .uninitThis
      (.object frame.className)).height = 0 :=
    s.height_replace rfl
  have hPasses : Passes frame 65535 s
      ([.load .ref 0] ++ [.invoke .special (.ofCall .special
        "java/lang/Object" "<init>" "()V")])
      (s.replace .uninitThis (.object frame.className)) := by
    refine ⟨_, hLoad, ?_, rfl, rfl, _, hInit, ?_, rfl, rfl, rfl⟩
    · exact Nat.le_add_left 1 65534
    · rw [hHeight]
      exact Nat.zero_le _
  exact (hUnder.wrote hWrote hPasses).returnVoid hBegun.isValue
    hReturn

theorem finished_getInstance
    (hFinished : d.Finished owner superClass n)
    (hAccepts : AcceptsName owner)
    (hRun : Gives (writeGetInstance owner (.ofClass owner)) d u
      d') :
    d'.Finished owner superClass (n + 1) := by
  have hLegible := Ty.legible_ofClass [] hAccepts
  refine hFinished.simpleMethod hLegible ?_ hRun
  intro frame m₀ m hBegun hBody
  simp only [yields_bind] at hBody
  rcases hBody with ⟨_, m₁, hGet, hReturn⟩
  have hUnder := hBegun.underway
  have hNext := hUnder.write
    (emits_getstatic hUnder.sound (descriptor_ofClass _) hGet)
    ((safe_getstatic _ _ _).of_yields hGet hUnder.sound)
    (pushes_getstatic (Begun.entry d _ _ _) owner instanceField
      hLegible rfl (descriptor_ofClass _)
      (Nat.le_add_left 2 65533)).passes
  exact hNext.returnValue rfl rfl (VType.isAssignableTo_self _)
    hBegun.result hReturn

/-
  The method that makes the one object and puts it into the
  field.
-/
theorem finished_staticInit
    (hFinished : d.Finished owner superClass n)
    (hAccepts : AcceptsName owner)
    (hRun : Gives (writeStaticInit owner (.ofClass owner)) d u
      d') :
    d'.Finished owner superClass (n + 1) := by
  have hLegible := Ty.legible_ofClass [] hAccepts
  refine hFinished.simpleMethod (Ty.legible_primitive _) ?_ hRun
  intro frame m₀ m hBegun hBody
  simp only [yields_bind] at hBody
  rcases hBody with ⟨_, m₁, hNew, _, m₂, hDup, _, m₃, hCall, _, m₄,
    hPut, hReturn⟩
  have hUnder := hBegun.underway
  have hReady := hBegun.ready (by decide)
  have hMade := wrote_new hUnder.sound hNew hDup hCall
  rcases pushes_new frame owner
      (fun k => hReady.slots k _)
      (fun v hIn => hReady.stack v hIn _)
      (Nat.le_add_left 2 65533) with
    ⟨s', hPushes⟩
  have hNext := hUnder.wrote hMade hPushes.passes
  have hState := TypeState.eq_push (hPushes.stack_eq rfl)
  rcases fieldType?_ofField owner instanceField hLegible rfl
      (descriptor_ofClass owner) with
    ⟨w, hType, hTy⟩
  have hStored : (Action.putstatic (.ofField owner instanceField
      ("L" ++ owner ++ ";"))).check frame s' =
        some { s' with stack := [] } := by
    rw [hState]
    simp only [Action.check, TypeState.popThen_push, hType,
      Option.bind_some]
    refine if_pos ?_
    rw [hTy, VType.ofTy_top]
    exact VType.isAssignableTo_self _
  have hDone := hNext.write
    (emits_putstatic hNext.sound (descriptor_ofClass _) hPut)
    ((safe_putstatic _ _ _).of_yields hPut hNext.sound)
    ⟨_, hStored, Nat.zero_le _, rfl, rfl, rfl⟩
  exact hDone.returnVoid hBegun.isValue hReturn

------------------------------------------------------------
-- Texts
------------------------------------------------------------

theorem finished_getName
    {text : String}
    (hFinished : d.Finished owner superClass n)
    (hRun : Gives (writeGetName text) d u d') :
    d'.Finished owner superClass (n + 1) := by
  refine hFinished.simpleMethod
    (Ty.legible_ofClass [] ⟨_, rfl⟩) ?_ hRun
  intro frame m₀ m hBegun hBody
  simp only [yields_bind] at hBody
  rcases hBody with ⟨_, m₁, hText, hReturn⟩
  have hUnder := hBegun.underway
  have hNext := hUnder.wrote (wrote_ldcString hUnder.sound hText)
    ⟨_, rfl, Nat.le_add_left 1 65534, rfl, rfl, rfl⟩
  exact hNext.returnValue rfl rfl (VType.isAssignableTo_self _)
    hBegun.result hReturn

/-
  The method that tells the name as text.  A new object takes
  two pieces of text and is pushed again each time.
-/
theorem finished_toString
    (hFinished : d.Finished owner superClass n)
    (hRun : Gives (writeToString owner) d u d') :
    d'.Finished owner superClass (n + 1) := by
  refine hFinished.simpleMethod
    (Ty.legible_ofClass [] ⟨_, rfl⟩) ?_ hRun
  intro frame m₀ m hBegun hBody
  simp only [yields_bind] at hBody
  rcases hBody with ⟨_, m₁, hNew, _, m₂, hDup, _, m₃, hCall, _, m₄,
    hThis, _, m₅, hName, _, m₆, hFirst, _, m₇, hText, _, m₈,
    hSecond, _, m₉, hString, hReturn⟩
  have hUnder := hBegun.underway
  have hReady := hBegun.ready (by decide)
  have hType : m₀.types[0]? = some (.ofClass d.name) := by
    rw [hBegun.types_cons rfl]
    rfl
  have h₃ := wrote_new hUnder.sound hNew hDup hCall
  have h₄ := h₃.trans (wrote_loadThis h₃.2
    (by rw [h₃.types_eq]; exact hType)
    (by rw [h₃.isStatic_eq]; exact hBegun.isStatic rfl) hThis)
  have h₅ := h₄.trans (wrote_invoke h₄.2 hName)
  have h₆ := h₅.trans (wrote_invoke h₅.2 hFirst)
  have h₇ := h₆.trans (wrote_ldcString h₆.2 hText)
  have h₈ := h₇.trans (wrote_invoke h₇.2 hSecond)
  have h₉ := h₈.trans (wrote_invoke h₈.2 hString)
  have hLow : (Begun.entry d Access.isPublic "toString"
      stringSignature).height + 2 ≤ 65535 := Nat.le_add_left 2 65533
  rcases pushes_new frame "java/lang/StringBuilder"
      (fun k => hReady.slots k _)
      (fun v hIn => hReady.stack v hIn _) hLow with
    ⟨s₁, hBuilder⟩
  have hHeight₁ : s₁.height = 1 := hBuilder.height
  have hReady₁ := hReady.pushes hBuilder fun v hIn => by
    rw [List.mem_singleton.mp hIn]
    rfl
  have hNarrow : (Ty.ofClass d.name).width = 1 := rfl
  rcases hReady₁.load frame hType (by omega) with
    ⟨v, hLoad, hAssign⟩
  rw [VType.ofTy_ofClass, hFinished.name] at hAssign
  have hSelf : ∀ w : VType, w.isAssignableTo w = true :=
    VType.isAssignableTo_self
  rcases hLoad.callMethod .virtual (by decide)
      (by decide : "getName" ≠ "<init>") (takes_text owner _) .nil
      hAssign (by rw [hHeight₁]; decide) with
    ⟨s₂, hGot⟩
  rcases (hBuilder.trans hGot).callMethod .virtual (by decide)
      (by decide : "append" ≠ "<init>") takes_append
      (.cons (hSelf _) .nil) (hSelf _) hLow with
    ⟨s₃, hOnce⟩
  have hHeight₃ : s₃.height = 1 := hOnce.height
  have hMark : Pushes frame s₃ [.push (.string "(..)")]
      [.object "java/lang/String"] _ :=
    .one rfl (by rw [hHeight₃]; decide) rfl rfl
  rcases (hOnce.trans hMark).callMethod .virtual (by decide)
      (by decide : "append" ≠ "<init>") takes_append
      (.cons (hSelf _) .nil) (hSelf _) hLow with
    ⟨s₄, hTwice⟩
  rcases hTwice.callMethod .virtual (by decide)
      (by decide : "toString" ≠ "<init>")
      (takes_text "java/lang/StringBuilder" _) .nil (hSelf _)
      hLow with
    ⟨s₅, hAll⟩
  exact (hUnder.wrote h₉ hAll.passes).returnValue
    (hAll.stack_eq rfl) rfl (hSelf _) hBegun.result hReturn

------------------------------------------------------------
-- The Body
------------------------------------------------------------

@[simp] theorem gives_parameter
    {position : Nat}
    {missing : Mismatch}
    {m m' : MethodDraft}
    {l : Local} :
    Gives (parameter position missing) m l m' ↔
      m.parameter? position = some l ∧ m' = m := by
  unfold parameter
  simp only [gives_bind, gives_get]
  constructor
  · rintro ⟨_, m, ⟨rfl, rfl⟩, hRun⟩
    cases hFound : m.parameter? position with
    | none =>
        rw [hFound] at hRun
        exact absurd hRun gives_throw
    | some k =>
        rw [hFound] at hRun
        rcases gives_pure.mp hRun with ⟨rfl, rfl⟩
        exact ⟨rfl, rfl⟩
  · rintro ⟨hFound, rfl⟩
    refine ⟨m', m', ⟨rfl, rfl⟩, ?_⟩
    rw [hFound]
    exact gives_pure.mpr ⟨rfl, rfl⟩

/- The parameters of an object's method are behind the object. -/
theorem index_of_parameter?
    {m : MethodDraft}
    {position : Nat}
    {l : Local}
    (hObject : m.isStatic = false)
    (hFound : m.parameter? position = some l) :
    l.index = 1 + position ∧
      ∃ t, m.types[1 + position]? = some t := by
  unfold MethodDraft.parameter? at hFound
  rw [hObject, if_neg Bool.false_ne_true] at hFound
  dsimp only at hFound
  split at hFound
  case h_1 v hLocal =>
      split at hFound
      case isTrue =>
          cases hFound
          refine ⟨rfl, v.ty, ?_⟩
          rw [MethodDraft.Sound.types_getElem?, hLocal]
          rfl
      case isFalse => cases hFound
  case h_2 => cases hFound

/- All parameters that can be null are checked. -/
theorem underway_nullChecks
    {className : String}
    {frame : MethodFrame}
    {s₀ s : TypeState}
    {m₀ m m' : MethodDraft}
    {position : Nat}
    {entries : List (String × Ty)}
    (hUnder : Underway frame s₀ m₀ m (some s))
    (hReady : Ready m.types s)
    (hEmpty : s.stack = [])
    (hObject : m₀.isStatic = false)
    (hEntries : ∀ (i : Nat) (name : String) (t : Ty),
      entries[i]? = some (name, t) →
        m.types[1 + (position + i)]? = some t)
    (hRun : Gives (nullChecks className position entries) m u m') :
    Underway frame s₀ m₀ m' (some s) ∧ m'.types = m.types := by
  induction entries generalizing m position with
  | nil =>
      rcases gives_pure.mp hRun with ⟨-, rfl⟩
      exact ⟨hUnder, rfl⟩
  | cons entry entries ih =>
      rcases entry with ⟨name, t⟩
      have hStatic : m.isStatic = false := by
        rw [header_isStatic hUnder.header, hObject]
      have hHere := hEntries 0 name t rfl
      have hRest : ∀ (i : Nat) (name : String) (t : Ty),
          entries[i]? = some (name, t) →
            m.types[1 + (position + 1 + i)]? = some t := by
        intro i name t hAt
        rw [Nat.add_assoc position, Nat.add_comm 1 i]
        exact hEntries (i + 1) name t hAt
      unfold nullChecks at hRun
      by_cases hNullable : t.isReference = true
      · rw [if_pos hNullable] at hRun
        simp only [gives_bind, gives_parameter, gives_emit] at hRun
        rcases hRun with
          ⟨l, m, ⟨hFound, rfl⟩, _, m₁, hCheck, hMore⟩
        rcases index_of_parameter? hStatic hFound with ⟨hIndex, -⟩
        have hType : m.types[l.index]? = some t := by
          rw [hIndex]
          exact hHere
        have hOther : t.isPrimitive = false := by
          simpa [Ty.isReference] using hNullable
        rcases hUnder.nullCheck hReady hEmpty hType hOther hCheck
          with ⟨hUnder₁, hTypes₁⟩
        rw [← hTypes₁] at hReady hRest
        rcases ih hUnder₁ hReady hRest hMore with
          ⟨hUnder₂, hTypes₂⟩
        exact ⟨hUnder₂, hTypes₂.trans hTypes₁⟩
      · rw [if_neg hNullable] at hRun
        exact ih hUnder hReady hRest hRun

/- Names of parameters are bound without any code. -/
theorem same_of_bindParams
    {env env' : Environment}
    {position : Nat}
    {names : List String}
    {m m' : MethodDraft}
    (hRun : Gives (bindParams env position names) m env' m') :
    m' = m := by
  induction names generalizing env position with
  | nil => exact (gives_pure.mp hRun).2
  | cons name names ih =>
      simp only [bindParams, gives_bind, gives_parameter] at hRun
      rcases hRun with ⟨l, m, ⟨-, rfl⟩, hRest⟩
      exact ih hRest

variable {c : Context} {signature : MethodSig}

theorem length_of_lowerAll
    {tys : List ValueType}
    {ts : List Ty}
    (hTypes : c.lowerAll tys = .ok ts) :
    ts.length = tys.length := by
  induction tys generalizing ts with
  | nil =>
      cases hTypes
      rfl
  | cons ty tys ih =>
      simp only [lowerAll, ok_bind] at hTypes
      rcases hTypes with ⟨t, -, us, hRest, hEnd⟩
      cases hEnd
      rw [List.length_cons, List.length_cons, ih hRest]

/- The context and lowered types make up the signature. -/
theorem evalSignature_parts
    {strategy : StrategyType}
    (hSignature : c.evalSignature strategy = .ok signature) :
    signature.params[0]? = some contextTy ∧
      signature.params.length = strategy.arity + 2 ∧
      (∀ t ∈ signature.params,
        t = contextTy ∨ ∃ ty, c.lower ty = .ok t) ∧
      ∃ ty, c.lower ty = .ok signature.result := by
  simp only [evalSignature, ok_bind] at hSignature
  rcases hSignature with ⟨params, hParams, input, hInput, result,
    hResult, hEnd⟩
  cases hEnd
  refine ⟨rfl, ?_, ?_, _, hResult⟩
  · rw [List.length_append, List.length_cons,
      length_of_lowerAll hParams]
    rfl
  · intro t hIn
    rcases List.mem_append.mp hIn with hFront | hLast
    · rcases List.mem_cons.mp hFront with rfl | hParam
      · exact Or.inl rfl
      · exact Or.inr (mem_lowerAll hParams t hParam)
    · cases List.mem_singleton.mp hLast
      exact Or.inr ⟨_, hInput⟩

theorem isValue_of_evalSignature
    {strategy : StrategyType}
    (hSignature : c.evalSignature strategy = .ok signature) :
    ∀ t ∈ signature.params, t.isValue = true := by
  intro t hIn
  rcases (evalSignature_parts hSignature).2.2.1 t hIn with
    rfl | ⟨ty, hType⟩
  · rfl
  · exact isValue_of_lower hType

/- What the method with the body takes and gives. -/
theorem evalSignature_spec
    {strategy : StrategyType}
    (hNames : NamesAccepted c.config c.symbols.decls)
    (hSignature : c.evalSignature strategy = .ok signature) :
    signature.params[0]? = some contextTy ∧
      (∀ t ∈ signature.params, t.Legible ∧ t.isValue = true) ∧
      signature.result.Legible ∧
      signature.result.isValue = true := by
  rcases evalSignature_parts hSignature with
    ⟨hContext, -, hParams, ty, hResult⟩
  refine ⟨hContext, ?_, legible_of_lower hNames hResult,
    isValue_of_lower hResult⟩
  intro t hIn
  refine ⟨?_, isValue_of_evalSignature hSignature t hIn⟩
  rcases hParams t hIn with rfl | ⟨ty, hType⟩
  · exact Ty.legible_variable _
  · exact legible_of_lower hNames hType

/- The checks at its start leave everything as it was. -/
theorem underway_eval
    {className : String}
    {frame : MethodFrame}
    {names : List String}
    {m₀ m₁ : MethodDraft}
    {ctx : Local}
    (hBegun : Begun d superClass Access.isPublic "eval" signature
      frame m₀)
    (hContext : signature.params[0]? = some contextTy)
    (hChecks : Gives (nullChecks className 0
      (names.zip signature.params)) m₀ u m₁)
    (hCtx : m₁.parameter? 0 = some ctx) :
    Underway frame
        (Begun.entry d Access.isPublic "eval" signature) m₀ m₁
        (some (Begun.entry d Access.isPublic "eval" signature)) ∧
      Ready m₁.types
        (Begun.entry d Access.isPublic "eval" signature) ∧
      m₁.types[ctx.index]? = some contextTy := by
  have hTypes := hBegun.types_cons rfl
  have hReady := hBegun.ready (by decide)
  have hObject := hBegun.isStatic rfl
  rcases underway_nullChecks hBegun.underway hReady rfl hObject
      (by
        intro i name t hAt
        have hSecond : signature.params[i]? = some t :=
          (List.getElem?_zip_eq_some.mp hAt).2
        rw [hTypes, Nat.zero_add, Nat.add_comm]
        exact hSecond) hChecks with
    ⟨hUnder, hTypes₁⟩
  have hStatic₁ : m₁.isStatic = false := by
    rw [header_isStatic hUnder.header, hObject]
  rw [(index_of_parameter? hStatic₁ hCtx).1, hTypes₁]
  refine ⟨hUnder, hReady, ?_⟩
  rw [hTypes]
  exact hContext

/-
  The method that holds the body.  Its locals have room for
  the receiver and all parameters.  The body leaves its value,
  which becomes the result.
-/
theorem finished_eval
    {decl : StrategyDecl}
    {definition : StrategyDef}
    {t : Ty}
    (hNames : NamesAccepted c.config c.symbols.decls)
    (hFinished : d.Finished owner superClass n)
    (hRun : Gives (c.writeEval decl definition t) d signature
      d') :
    d'.Finished owner superClass (n + 1) ∧
      c.evalSignature decl.ty = .ok signature ∧
      1 + Ty.widths signature.params ≤ 65535 := by
  simp only [writeEval, gives_bind, gives_liftExcept, gives_pure]
    at hRun
  rcases hRun with ⟨_, d, ⟨hSignature, rfl⟩, _, _, hMethod, rfl,
    rfl⟩
  rcases evalSignature_spec hNames hSignature with
    ⟨hContext, hParams, hResult, hValue⟩
  refine ⟨hFinished.method hParams hResult ?_ hMethod, hSignature,
    ?_⟩
  · intro frame m₀ m hBegun hBody
    simp only [gives_bind, gives_parameter, gives_emit] at hBody
    rcases hBody with ⟨_, m₁, hChecks, ctx, m₁, ⟨hCtx, rfl⟩, env,
      m₂, hEnv, result, m₃, hAssemble, _, m₄, hCoerce, hReturn⟩
    cases same_of_bindParams hEnv
    rcases underway_eval hBegun hContext hChecks hCtx with
      ⟨hUnder₁, hReady, hCtxTy⟩
    rcases assemble_code hUnder₁.sound hCtxTy hAssemble with
      ⟨as, us, hCode, hWrote⟩
    rcases hCode.passes frame hNames hReady hCtxTy rfl with
      ⟨hSource, v, s₁, hPasses, hStack, hAssign⟩
    rcases coerce_code hWrote.2 hCoerce with
      ⟨bs, hCoerces, hWrote'⟩
    rcases hCoerces.turns hSource hValue hAssign with
      ⟨w, hTurns, hAssign'⟩
    have hTurned := hTurns { s₁ with stack := [] }
      (Nat.le_add_left 2 65533)
    rw [← TypeState.eq_push hStack] at hTurned
    have hUnder₂ := hUnder₁.wrote (hWrote.trans hWrote')
      (hPasses.append hTurned)
    exact hUnder₂.returnValue rfl hValue hAssign' hBegun.result
      hReturn
  · rcases gives_method hMethod with ⟨m₀, _, _, _, hDraft, -⟩
    have hBlank := ClassDraft.blank_method hFinished.pool
      (fun t hIn => (hParams t hIn).2) hDraft
    have hSmall := hBlank.sound.small
    rw [hBlank.sound.size, hBlank.types, Ty.widths_append]
      at hSmall
    exact hSmall

------------------------------------------------------------
-- The Bridge
------------------------------------------------------------

theorem narrow_of_object
    {t : Ty}
    (hObject : t.isPrimitive = false) :
    t.width = 1 ∧ Family.ofTy t = .ref := by
  cases t with
  | primitive p => cases hObject
  | _ => exact ⟨rfl, rfl⟩

/-
  Parameters that are objects are loaded as values of types.
  The values need no more room than the types have.
-/
theorem loadParams_spec
    {m m' : MethodDraft}
    {position : Nat}
    {ts : List Ty}
    (frame : MethodFrame)
    (hSound : m.Sound)
    (hObject : m.isStatic = false)
    (hObjects : ∀ t ∈ m.types, t.isPrimitive = false)
    (hValues : ∀ t ∈ ts, t.isValue = true)
    (hRun : Gives (loadParams position ts) m u m') :
    Wrote m (loadActions (1 + position) ts) [] m' ∧
      ∀ s, Ready m.types s → s.height + Ty.widths ts ≤ 65535 →
        ∃ vs s',
          Pushes frame s (loadActions (1 + position) ts) vs s' ∧
          Action.Fit vs (ts.map VType.ofTy) := by
  induction ts generalizing m position with
  | nil =>
      rcases gives_pure.mp hRun with ⟨-, rfl⟩
      exact ⟨⟨.refl _, hSound⟩, fun s _ _ =>
        ⟨[], s, .refl frame s, .nil⟩⟩
  | cons t ts ih =>
      simp only [loadParams, gives_bind, gives_parameter,
        gives_emit] at hRun
      rcases hRun with
        ⟨l, m, ⟨hFound, rfl⟩, _, m₁, hLoad, _, m₂, hUnbox, hRest⟩
      rcases index_of_parameter? hObject hFound with
        ⟨hIndex, held, hType⟩
      have hIn := List.mem_of_getElem? hType
      rcases narrow_of_object (hObjects held hIn) with
        ⟨hNarrow, hFamily⟩
      have hSlot : Ty.slotOf m.types (1 + position) =
          1 + position := by
        refine Ty.slotOf_narrow
          (fun x hx => (narrow_of_object (hObjects x hx)).1) ?_
        exact Nat.le_of_lt (List.getElem?_eq_some_iff.mp hType).1
      have hOne := wrote_load (l := l) hSound
        (by rw [hIndex]; exact hType) hLoad
      rw [hIndex, hSlot, hFamily] at hOne
      have hTwo := hOne.trans (wrote_unbox hOne.2 hUnbox)
      rcases ih hTwo.2
          (by rw [hTwo.isStatic_eq]; exact hObject)
          (by rw [hTwo.types_eq]; exact hObjects)
          (fun u hIn => hValues u (List.mem_cons_of_mem t hIn))
          hRest with
        ⟨hThree, hLoads⟩
      refine ⟨hTwo.trans hThree, ?_⟩
      intro s hReady hLow
      rw [Ty.widths_cons] at hLow
      have hValue := hValues t List.mem_cons_self
      have hPos := t.width_pos
      rcases hReady.load frame hType (by omega) with
        ⟨v, hPushes, hAssign⟩
      rw [hSlot, hFamily] at hPushes
      have hReference := VType.isReference_of_isAssignableTo
        (hReady.values held hIn) (hObjects held hIn) hAssign
      rcases turns_unbox hValue hReference with
        ⟨w, hTurns, hAssign'⟩
      rcases hPushes.turn hTurns (by omega) with ⟨s₁, hTurned⟩
      have hReady₁ := hReady.pushes hTurned fun x hx => by
        cases List.mem_singleton.mp hx
        exact VType.isInitialized_of_isAssignableTo hValue hAssign'
      have hHeight := hTurned.height
      simp only [VType.totalSlots_cons,
        VType.slots_eq_width hValue hAssign'] at hHeight
      rw [hTwo.types_eq] at hLoads
      rcases hLoads s₁ hReady₁ (by
          simp only [VType.totalSlots, List.foldr_nil] at hHeight
          omega) with
        ⟨vs, s', hMore, hFit⟩
      exact ⟨w :: vs, s', hTurned.trans hMore, .cons hAssign' hFit⟩

/-
  The method of the interface.  It loads the receiver and the
  parameters, and calls the method that holds the body; what
  it loads has had room in the locals of that method.
-/
theorem finished_bridge
    {decl : StrategyDecl}
    (hFinished : d.Finished owner superClass n)
    (hParams : ∀ t ∈ signature.params,
      t.Legible ∧ t.isValue = true)
    (hResult : signature.result.Legible)
    (hValue : signature.result.isValue = true)
    (hRoom : 1 + Ty.widths signature.params ≤ 65535)
    (hRun : Gives (writeBridge decl owner signature) d u d') :
    d'.Finished owner superClass (n + 1) := by
  unfold writeBridge at hRun
  simp only [gives_bind, gives_liftExcept, ofTypeError_eq_ok]
    at hRun
  rcases hRun with ⟨text, d, ⟨hText, rfl⟩, erased, d, ⟨-, rfl⟩,
    hRun⟩
  split at hRun
  case isTrue =>
      rcases gives_pure.mp hRun with ⟨-, rfl⟩
      exact { hFinished with
        few := Nat.le_succ_of_le hFinished.few }
  case isFalse =>
      refine hFinished.method (legible_objects _)
        Ty.legible_object ?_ hRun
      intro frame m₀ m hBegun hBody
      simp only [gives_bind, gives_emit] at hBody
      rcases hBody with ⟨_, m₁, hThis, _, m₂, hLoads, _, m₃, hCall,
        _, m₄, hBox, hReturn⟩
      have hUnder := hBegun.underway
      have hReady := hBegun.ready (by decide)
      have hTypes := hBegun.types_cons rfl
      have hType : m₀.types[0]? = some (.ofClass d.name) := by
        rw [hTypes]
        rfl
      have hObjects : ∀ t ∈ m₀.types, t.isPrimitive = false := by
        rw [hTypes]
        intro t hIn
        rcases List.mem_cons.mp hIn with rfl | hParam
        · rfl
        · rw [(List.mem_replicate.mp hParam).2]
          rfl
      have hOne := wrote_loadThis hUnder.sound hType
        (hBegun.isStatic rfl) hThis
      rcases loadParams_spec frame hOne.2
          (by rw [hOne.isStatic_eq]; exact hBegun.isStatic rfl)
          (by rw [hOne.types_eq]; exact hObjects)
          (fun t hIn => (hParams t hIn).2) hLoads with
        ⟨hTwo, hPushed⟩
      have hWrote := ((hOne.trans hTwo).trans
        (wrote_invoke hTwo.2 hCall)).trans
          (wrote_box (wrote_invoke hTwo.2 hCall).2 hBox)
      have hLow : ∀ access, (Begun.entry d access "eval"
          (bridgeSignature decl.ty.arity)).height + 2 ≤ 65535 :=
        fun _ => Nat.le_add_left 2 65533
      rcases hReady.load frame hType
          (Nat.le_of_succ_le (hLow _)) with
        ⟨v, hLoad, hAssign⟩
      have hReady₁ := hReady.pushes hLoad fun w hIn => by
        cases List.mem_singleton.mp hIn
        exact VType.isInitialized_of_isAssignableTo
          (t := .ofClass d.name) rfl hAssign
      have hHeight := hLoad.height
      rw [VType.totalSlots_cons, VType.slots_eq_width
        (t := .ofClass d.name) rfl hAssign] at hHeight
      rcases hPushed _ (by rw [hOne.types_eq]; exact hReady₁)
          (by rw [hHeight]; exact hRoom) with
        ⟨vs, s₁, hMore, hFit⟩
      rw [VType.ofTy_ofClass, hFinished.name] at hAssign
      have hTakes : (MemberRef.ofCall .virtual owner "eval"
          text).Takes _ _ :=
        MethodSig.takes hParams hResult hValue hText
      rcases (hLoad.trans hMore).callMethod .virtual (by decide)
          (by decide : "eval" ≠ "<init>") hTakes hFit hAssign
          (hLow _) with
        ⟨s₂, hCalled⟩
      rcases turns_box hValue (VType.isAssignableTo_self _) with
        ⟨w, hTurns, hReference, -⟩
      rcases hCalled.turn hTurns
          (Nat.le_of_succ_le (hLow _)) with
        ⟨s₃, hBoxed⟩
      have hAny : w.isAssignableTo (.ofTy Known.object) = true := by
        rw [Known.object, VType.ofTy_ofClass]
        exact VType.isAssignableTo_object hReference
      exact (hUnder.wrote hWrote hBoxed.passes).returnValue
        (hBoxed.stack_eq rfl) rfl hAny hBegun.result hReturn

/- All methods of the class are finished. -/
theorem finished_members
    {decl : StrategyDecl}
    {definition : StrategyDef}
    {interface : String}
    (hNames : NamesAccepted c.config c.symbols.decls)
    (hAccepts : AcceptsName owner)
    (hFinished : d.Finished owner superClass 0)
    (hRun : Gives (c.writeMembers decl definition interface owner
      (.ofClass owner)) d u d') :
    d'.Finished owner superClass 10 := by
  simp only [writeMembers, gives_bind, gives_draft,
    gives_liftExcept] at hRun
  rcases hRun with ⟨_, d₁, hInterface, _, d₁, ⟨-, rfl⟩, _, d₂,
    hSignature, _, d₃, hField, _, d₄, hConstructor, _, d₅,
    hInstance, signature, d₆, hEval, _, d₇, hBridge, _, d₈, hName,
    _, d₉, hText, hInit⟩
  have h₃ := ((hFinished.addInterface hInterface).setSignature
    hSignature).addField hField
  have h₅ := finished_getInstance
    (finished_constructor h₃ hConstructor) hAccepts hInstance
  rcases finished_eval hNames h₅ hEval with
    ⟨h₆, hEvalSignature, hRoom⟩
  rcases evalSignature_spec hNames hEvalSignature with
    ⟨-, hParams, hResult, hValue⟩
  have h₇ := finished_bridge h₆ hParams hResult hValue hRoom
    hBridge
  exact finished_staticInit
    (finished_toString (finished_getName h₇ hName) hText) hAccepts
    hInit

------------------------------------------------------------
-- The Class
------------------------------------------------------------

/- The parts of making the class of a definition. -/
theorem generate_parts
    {decl : StrategyDecl}
    {definition : StrategyDef}
    {compiled : CompiledClass}
    (hRun : c.generate decl definition = .ok compiled) :
    ∃ interface access start done,
      checkDefinition decl definition = .ok () ∧
      ClassDraft.start c.config.classVersion access
        (decl.name.internalName "Strategy") superClass =
          .ok start ∧
      Gives (c.writeMembers decl definition interface
        (decl.name.internalName "Strategy") (strategyClass decl))
        start () done ∧
      compiled.bytes = done.toClassFile.toBytes.toArray := by
  simp only [generate, ok_bind, ofTypeError_eq_ok, strategyClass,
    internalName_ofClass] at hRun
  rcases hRun with ⟨_, hFits, owner, hOwner, interface, -, hRun⟩
  cases hOwner
  split at hRun
  case h_1 => cases hRun
  case h_2 start hStart =>
      rcases ok_bind.mp hRun with ⟨⟨u, done⟩, hMembers, hMade⟩
      refine ⟨interface, _, start, done, hFits, hStart, hMembers,
        ?_⟩
      dsimp only at hMade
      split at hMade
      case h_1 => cases hMade
      case h_2 made hClass =>
          cases hMade
          unfold CompiledClass.ofTy at hClass
          split at hClass
          case h_1 => cases hClass
          case h_2 =>
              cases hClass
              rfl

end Context

end Stratagem
