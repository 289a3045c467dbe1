import Stratagem.Proofs.Assembly.Classes
import Stratagem.Proofs.Lowering.Typing

/-
  Methods from their first line to their last.

  A method starts with its parameters in its locals.  If the
  steps of its body lead from there to an end that is never
  passed, the method is one more of a class whose methods are
  finished.

  Key definitions include:
    * `Begun`

  Main declarations:
    * `ready_spread`
    * `Context.nullCheck_parts`
    * `Underway.nullCheck`
    * `Underway.returnValue`
    * `ClassDraft.Finished.method`
-/

namespace Stratagem

open Jvm

------------------------------------------------------------
-- Entry
------------------------------------------------------------

/- A parameter is found where its local is. -/
theorem getD_spread
    {ts : List Ty}
    {i : Nat}
    {t : Ty}
    (hValues : ∀ t ∈ ts, t.isValue = true)
    (hAt : ts[i]? = some t) :
    (VType.spread (ts.map VType.ofTy)).getD (Ty.slotOf ts i) .top =
      .ofTy t := by
  induction ts generalizing i with
  | nil => cases hAt
  | cons u ts ih =>
      have hWidth : (VType.ofTy u).slots = u.width :=
        VType.slots_of_family?
          (VType.family?_ofTy (hValues u List.mem_cons_self))
      have hPos := u.width_pos
      have hMost := u.width_le
      cases i with
      | zero =>
          cases hAt
          unfold VType.spread
          rw [List.map_cons]
          dsimp only
          split <;> rfl
      | succ i =>
          have hRest := ih
            (fun w hIn => hValues w (List.mem_cons_of_mem u hIn))
            hAt
          have hSlot : Ty.slotOf (u :: ts) (i + 1) =
              u.width + Ty.slotOf ts i := rfl
          rw [List.map_cons, VType.spread, hSlot, hWidth]
          split
          case isTrue hTwo =>
              rw [hTwo, Nat.add_comm]
              exact hRest
          case isFalse hOther =>
              have hOne : u.width = 1 := by omega
              rw [hOne, Nat.add_comm]
              exact hRest

/- What reaches into a second slot has that slot. -/
theorem add_two_le_of_spread
    {ts : List Ty}
    {k : Nat}
    (hValues : ∀ t ∈ ts, t.isValue = true)
    (hTwo : ((VType.spread (ts.map VType.ofTy)).getD k
      .top).slots = 2) :
    k + 2 ≤ Ty.widths ts := by
  induction ts generalizing k with
  | nil => cases hTwo
  | cons u ts ih =>
      have hWidth : (VType.ofTy u).slots = u.width :=
        VType.slots_of_family?
          (VType.family?_ofTy (hValues u List.mem_cons_self))
      have hRest := fun k => ih (k := k)
        fun w hIn => hValues w (List.mem_cons_of_mem u hIn)
      have hPos := u.width_pos
      rw [List.map_cons, VType.spread, hWidth] at hTwo
      rw [Ty.widths_cons]
      split at hTwo
      case isTrue hWide =>
          cases k with
          | zero => omega
          | succ k =>
              cases k with
              | zero => cases hTwo
              | succ k =>
                  have hMore := hRest k hTwo
                  omega
      case isFalse hNarrow =>
          cases k with
          | zero =>
              rw [← hWidth] at hNarrow
              exact absurd hTwo hNarrow
          | succ k =>
              have hMore := hRest k hTwo
              omega

theorem mem_spread
    {v : VType}
    {vs : List VType}
    (hIn : v ∈ VType.spread vs) :
    v = .top ∨ v ∈ vs := by
  induction vs with
  | nil => cases hIn
  | cons w vs ih =>
      unfold VType.spread at hIn
      split at hIn
      case isTrue =>
          rcases List.mem_cons.mp hIn with rfl | hTail
          · exact Or.inr List.mem_cons_self
          · rcases List.mem_cons.mp hTail with hTop | hRest
            · exact Or.inl hTop
            · exact (ih hRest).imp_right (List.mem_cons_of_mem w)
      case isFalse =>
          rcases List.mem_cons.mp hIn with rfl | hTail
          · exact Or.inr List.mem_cons_self
          · exact (ih hTail).imp_right (List.mem_cons_of_mem w)

/- Locals that hold their parameters are ready. -/
theorem ready_spread
    {ts : List Ty}
    {s : TypeState}
    (hValues : ∀ t ∈ ts, t.isValue = true)
    (hSlots : ∀ k, s.slots k =
      (VType.spread (ts.map VType.ofTy)).getD k .top)
    (hEmpty : s.stack = []) :
    Ready ts s := by
  refine ⟨hValues, ?_, ?_, ?_, ?_⟩
  · intro i t hAt
    rw [hSlots, getD_spread hValues hAt]
    exact VType.isAssignableTo_self _
  · intro k hTwo
    rw [hSlots] at hTwo
    exact add_two_le_of_spread hValues hTwo
  · intro k o hUninit
    rw [hSlots, List.getD_eq_getElem?_getD] at hUninit
    cases hAt : (VType.spread (ts.map VType.ofTy))[k]? with
    | none =>
        rw [hAt] at hUninit
        cases hUninit
    | some v =>
        rw [hAt] at hUninit
        rcases mem_spread (List.mem_of_getElem? hAt) with
          rfl | hIn
        · cases hUninit
        · rcases List.mem_map.mp hIn with ⟨t, ht, rfl⟩
          exact VType.ne_uninit
            (VType.isInitialized_of_isAssignableTo (hValues t ht)
              (VType.isAssignableTo_self _)) o hUninit
  · rw [hEmpty]
    exact nofun

/-
  A method of a class without code.  Its frame has the result
  that its descriptor is read as.
-/
structure Begun
    (c : ClassDraft)
    (superName : String)
    (access : UInt16)
    (name : String)
    (signature : MethodSig)
    (frame : MethodFrame)
    (m : MethodDraft) : Prop where
  blank : m.Blank (c.receiver access ++ signature.params)
  values : ∀ t ∈ signature.params, t.isValue = true
  access : m.access = access
  className : frame.className = c.name
  superName : frame.superName = superName
  result : VType.ofTy frame.result = .ofTy signature.result
  isValue : frame.result.isValue = signature.result.isValue

namespace Begun

variable {c : ClassDraft} {superName : String} {access : UInt16}
variable {name : String} {signature : MethodSig}
variable {frame : MethodFrame} {m : MethodDraft}

/- The state that the method starts in. -/
def entry
    (c : ClassDraft)
    (access : UInt16)
    (name : String)
    (signature : MethodSig) : TypeState :=
  .entry c.name access name (signature.params.map VType.ofTy)

theorem allValues
    (hBegun : Begun c superName access name signature frame m) :
    ∀ t ∈ c.receiver access ++ signature.params,
      t.isValue = true := by
  intro t hIn
  rcases List.mem_append.mp hIn with hThis | hParam
  · unfold ClassDraft.receiver at hThis
    split at hThis
    case isTrue => cases hThis
    case isFalse =>
        cases List.mem_singleton.mp hThis
        rfl
  · exact hBegun.values t hParam

theorem underway
    (hBegun : Begun c superName access name signature frame m) :
    Underway frame (entry c access name signature) m m
      (some (entry c access name signature)) :=
  .start frame hBegun.blank hBegun.allValues rfl

theorem types
    (hBegun : Begun c superName access name signature frame m) :
    m.types = c.receiver access ++ signature.params :=
  hBegun.blank.types

/- The receiver of a constructor apart, all locals are ready. -/
theorem ready
    (hBegun : Begun c superName access name signature frame m)
    (hName : name ≠ "<init>") :
    Ready m.types (entry c access name signature) := by
  rw [hBegun.types]
  refine ready_spread hBegun.allValues ?_ rfl
  intro k
  have hThis : (receiverOf c.name access name).toList =
      (c.receiver access).map VType.ofTy := by
    unfold receiverOf ClassDraft.receiver
    rw [if_neg hName]
    split
    case isTrue => rfl
    case isFalse =>
        rw [List.map_singleton, VType.ofTy_ofClass]
        rfl
  unfold entry TypeState.entry
  dsimp only
  rw [hThis, List.map_append]

end Begun

------------------------------------------------------------
-- Steps of a Body
------------------------------------------------------------

/- The only value on a stack is on top of nothing. -/
theorem TypeState.eq_push
    {s : TypeState}
    {v : VType}
    (hStack : s.stack = [v]) :
    s = { s with stack := [] }.push v := by
  rcases s with ⟨slots, stack, made⟩
  dsimp only at hStack
  rw [hStack]
  rfl

theorem Pushes.stack_eq
    {frame : MethodFrame}
    {s s' : TypeState}
    {as : List Action}
    {v : VType}
    (hPushes : Pushes frame s as [v] s')
    (hEmpty : s.stack = []) :
    s'.stack = [v] := by
  rw [hPushes.stack, hEmpty]
  rfl

namespace Underway

variable {frame : MethodFrame} {s₀ s s' : TypeState}
variable {m₀ m m' : MethodDraft} {u : Unit} {t : Ty} {v : VType}

theorem sound
    {after : Option TypeState}
    (hUnder : Underway frame s₀ m₀ m after) :
    m.Sound :=
  hUnder.chart.sound

/- Actions that were written go on. -/
theorem wrote
    {as : List Action}
    {ts : List Ty}
    (hUnder : Underway frame s₀ m₀ m (some s))
    (hWrote : Wrote m as ts m')
    (hPasses : Passes frame 65535 s as s') :
    Underway frame s₀ m₀ m' (some s') :=
  hUnder.write hWrote.1 hWrote.2 hPasses

/- A method ends with the only value on its stack. -/
theorem returnValue
    (hUnder : Underway frame s₀ m₀ m (some s))
    (hStack : s.stack = [v])
    (hValue : t.isValue = true)
    (hAssign : v.isAssignableTo (.ofTy t) = true)
    (hResult : VType.ofTy frame.result = .ofTy t)
    (hRun : Yields (Emitter.returnValue t) m u m') :
    Underway frame s₀ m₀ m' none := by
  have hAction : returnAction t = .returnValue (.ofTy t) := by
    unfold returnAction
    rw [beq_void, if_neg]
    cases t with
    | primitive p =>
        cases p <;> first | exact Bool.false_ne_true | cases hValue
    | _ => exact Bool.false_ne_true
  have hState := TypeState.eq_push hStack
  have hCheck : (Action.returnValue (.ofTy t)).check frame s =
      some { s with stack := [] } := by
    rw [hState]
    refine if_pos ⟨VType.family?_of_isAssignableTo hValue hAssign,
      ?_⟩
    rw [hResult]
    exact hAssign
  have hEmits := emits_returnValue hRun
  rw [hAction] at hEmits
  exact hUnder.stop hEmits
    ((Emitter.safe_returnValue t).of_yields hRun hUnder.sound)
    hCheck rfl rfl

/- A method without a result ends with nothing. -/
theorem returnVoid
    (hUnder : Underway frame s₀ m₀ m (some s))
    (hResult : frame.result.isValue = false)
    (hRun : Yields (Emitter.returnValue (.primitive .void)) m u
      m') :
    Underway frame s₀ m₀ m' none := by
  have hAction : returnAction (.primitive .void) =
      .returnVoid := by
    unfold returnAction
    rw [beq_void]
    rfl
  have hEmits := emits_returnValue hRun
  rw [hAction] at hEmits
  exact hUnder.stop hEmits
    ((Emitter.safe_returnValue _).of_yields hRun hUnder.sound)
    (if_neg (by simp [hResult])) rfl rfl

end Underway

------------------------------------------------------------
-- Null Checks
------------------------------------------------------------

section NullChecks

open Emitter

variable {frame : MethodFrame} {s₀ s : TypeState}
variable {m₀ m m' : MethodDraft} {u : Unit} {t : Ty}

theorem pushes_exception
    {ts : List Ty}
    (frame : MethodFrame)
    (offset : Nat)
    (name text : String)
    (hReady : Ready ts s)
    (hLow : s.height + 3 ≤ 65535) :
    ∃ s', Pushes frame s (throwActions offset name text)
      [.object name] s' := by
  have hTypes : (MemberRef.ofCall .special name "<init>"
      "(Ljava/lang/String;)V").callTypes? =
        some ([Known.string], .primitive .void) := by
    unfold MemberRef.callTypes? MemberRef.ofCall
    dsimp only
    rfl
  have hFit : Action.Fit (List.map Literal.vtype [.string text])
      (List.map VType.ofTy [Known.string]) := by
    refine .cons ?_ .nil
    rw [Known.string, VType.ofTy_ofClass]
    exact VType.isAssignableTo_self _
  have hMade : ∃ s', Pushes frame s
      ([.new offset name, .dup] ++ [Literal.string text].map .push ++
        [.invoke .special (.ofCall .special name "<init>"
          "(Ljava/lang/String;)V")]) [.object name] s' :=
    pushes_construct (fun k => hReady.slots k _)
      (fun v hIn => hReady.stack v hIn _) hTypes hFit hLow
  exact hMade

/- Binding a label leaves what a method is and its locals. -/
theorem MethodDraft.bind_same
    (m : MethodDraft)
    (l : Label) :
    (m.bind l).header = m.header ∧ (m.bind l).pool = m.pool ∧
      (m.bind l).types = m.types := by
  unfold MethodDraft.bind
  dsimp only
  split <;> exact ⟨rfl, rfl, rfl⟩

/- What the exception of a check says. -/
def Context.nullMessage
    (className name : String) : String :=
  s!"Non-null parameter is null: method {className}.eval, " ++
    s!"parameter {name}"

/-
  The parts of a check.  Its label is made first, the local is
  loaded, and a jump leads over the block that makes and
  throws the exception.
-/
theorem Context.nullCheck_parts
    {l : Local}
    {name className : String}
    (hSound : m.Sound)
    (hType : m.types[l.index]? = some t)
    (hRun : Yields (nullCheck l name className) m u m') :
    m'.header = m.header ∧ m'.types = m.types ∧ ∃ m₂ m₃ m₄,
      Wrote { m with labels := m.labels.push {} }
        [.load (.ofTy t) (Ty.slotOf m.types l.index)] [] m₂ ∧
      Emits (m₂.pop.2.jump .ifnonnull ⟨m.labels.size⟩)
        (throwActions (m₂.offset + 3)
          "java/lang/NullPointerException"
          (nullMessage className name)) [] m₃ ∧
      Emits m₃ [.throw] [] m₄ ∧
      m₄.Sound ∧
      m' = m₄.bind ⟨m.labels.size⟩ := by
  unfold nullCheck newLabel Emitter.ifnonnull Emitter.bind at hRun
  simp only [yields_bind, yields_modifyGet, yields_discard,
    yields_pop, yields_modify, Prod.ext_iff] at hRun
  rcases hRun with ⟨_, m₁, ⟨rfl, rfl⟩, _, m₂, hLoad, _, m₃,
    ⟨_, _, ⟨_, -, rfl⟩, rfl⟩, _, m₄, hNew, _, m₅, hDup, _, m₆,
    hText, _, m₇, hCall, _, m₈, hThrow, rfl⟩
  have hSound₁ : ({ m with labels := m.labels.push {} } :
      MethodDraft).Sound := (safe_newLabel m).sound hSound
  have hLoaded := wrote_load hSound₁ hType hLoad
  have hSound₃ := sound_jump (sound_pop hLoaded.2) .ifnonnull
    ⟨m.labels.size⟩
  rcases emits_exception hSound₃ hNew hDup hText hCall hThrow with
    ⟨hMade, hThrown, hSound₈⟩
  rw [MethodDraft.offset_jump_pop] at hMade
  have hBlock := hMade.trans hThrown
  rcases m₈.bind_same ⟨m.labels.size⟩ with ⟨hHeader, -, hTypes⟩
  refine ⟨?_, ?_, m₂, m₇, m₈, hLoaded, hMade, hThrown, hSound₈,
    rfl⟩
  · rw [hHeader, hBlock.header, MethodDraft.header_jump_pop]
    exact hLoaded.1.header
  · rw [hTypes, hBlock.types, MethodDraft.types_jump_pop,
      hLoaded.1.types]
    simp [MethodDraft.types]

/-
  A parameter that can be null is checked.  It is loaded, and
  the exception is made and thrown in a block that is jumped
  over, so nothing changes for what follows.
-/
theorem Underway.nullCheck
    {l : Local}
    {name className : String}
    (hUnder : Underway frame s₀ m₀ m (some s))
    (hReady : Ready m.types s)
    (hEmpty : s.stack = [])
    (hType : m.types[l.index]? = some t)
    (hOther : t.isPrimitive = false)
    (hRun : Yields (Context.nullCheck l name className) m u m') :
    Underway frame s₀ m₀ m' (some s) ∧ m'.types = m.types := by
  have hHeight : s.height = 0 := by
    rw [TypeState.height, hEmpty]
    rfl
  rcases Context.nullCheck_parts hUnder.sound hType hRun with
    ⟨hHeader, hTypes, m₂, m₃, m₄, ⟨hEmits₂, hSound₂⟩, hMade,
      hThrown, hSound₄, rfl⟩
  have hTracks := hUnder.chart.tracks s rfl
  have hTracks₁ : ({ m with labels := m.labels.push {} } :
      MethodDraft).Tracks s.stack :=
    ⟨hTracks.stack, hTracks.known, hTracks.depth, hTracks.high,
      hTracks.held, hTracks.values⟩
  have hWidth := t.width_le
  rcases hReady.load frame hType (by omega) with
    ⟨v, hPushes, hAssign⟩
  have hReference := VType.isReference_of_isAssignableTo
    (hReady.values t (List.mem_of_getElem? hType)) hOther hAssign
  have hStretch := hEmits₂.stretch hTracks₁ hPushes.passes
  have hTracks₃ : (m₂.pop.2.jump .ifnonnull
      ⟨m.labels.size⟩).Tracks s.stack := by
    have hPopped := (hStretch.tracks _ rfl).pop.1
    exact ⟨hPopped.stack, hPopped.known, hPopped.depth,
      hPopped.high, hPopped.held, hPopped.values⟩
  rcases pushes_exception frame _
      "java/lang/NullPointerException" _ hReady (by omega) with
    ⟨s', hException⟩
  have hMaking := hMade.stretch hTracks₃ hException.passes
  have hStack := TypeState.eq_push (hException.stack_eq hEmpty)
  have hCheck : Action.throw.check frame s' =
      some { s' with stack := [] } := by
    rw [hStack]
    rfl
  have hBlock := hMaking.trans (hThrown.lastStretch
    (hMaking.tracks _ rfl) hCheck rfl rfl)
  have hChart := hUnder.chart.skips hEmpty hSound₂ hSound₄
    hReference hStretch (hMade.trans hThrown) (by simp)
    (by simp [throwActions]) hBlock
  refine ⟨⟨hChart, hHeader.trans hUnder.header, ?_⟩, hTypes⟩
  have hGrown := hBlock.grown
  rw [MethodDraft.pool_jump_pop] at hGrown
  rw [(m₄.bind_same ⟨m.labels.size⟩).2.1]
  exact (hUnder.grown.trans hStretch.grown).trans hGrown

end NullChecks

------------------------------------------------------------
-- Whole Methods
------------------------------------------------------------

@[simp] theorem gives_draft
    {α : Type}
    {x : Drafting α}
    {c c' : ClassDraft}
    {a : α} :
    Gives (Generating.draft x) c a c' ↔ Yields x c a c' :=
  gives_orGiveUp

/- The parts of writing a method. -/
theorem gives_method
    {α : Type}
    {access : UInt16}
    {name : String}
    {signature : MethodSig}
    {paramNames : List String}
    {body : Assembling α}
    {c c' : ClassDraft}
    {a : α}
    (hRun : Gives
      (Generating.method access name signature paramNames body) c a
      c') :
    ∃ m₀ m member m',
      c.method access name signature paramNames = .ok m₀ ∧
      Gives body m₀ a m ∧
      Yields MethodDraft.finish m member m' ∧
      Yields (Drafting.close m' (.ok member)) c () c' := by
  unfold Generating.method at hRun
  simp only [gives_bind, gives_get] at hRun
  rcases hRun with ⟨_, c, ⟨rfl, rfl⟩, hRun⟩
  split at hRun
  case h_1 => exact absurd hRun gives_throw
  case h_2 m₀ hMethod =>
      rw [gives_bind] at hRun
      rcases hRun with ⟨⟨b, m⟩, c₁, hLift, hRest⟩
      rw [gives_liftExcept] at hLift
      rcases hLift with ⟨hBody, rfl⟩
      rcases hFinish : outcomeOf MethodDraft.finish m with
        ⟨result, m'⟩
      have hSame : (MethodDraft.finish m :
          Except ClassFileError Member × MethodDraft) =
            (result, m') := hFinish
      dsimp only at hRest
      rw [hSame] at hRest
      simp only [gives_bind, gives_draft, gives_pure] at hRest
      rcases hRest with ⟨_, _, hClose, rfl, rfl⟩
      cases result with
      | error e =>
          simp [Drafting.close] at hClose
      | ok member =>
          exact ⟨m₀, m, member, m', hMethod, hBody, hFinish,
            hClose⟩

/-
  A method whose body never passes its end is one more
  finished method of its class.
-/
theorem ClassDraft.Finished.method
    {α : Type}
    {access : UInt16}
    {name : String}
    {signature : MethodSig}
    {paramNames : List String}
    {body : Assembling α}
    {className superName : String}
    {n : Nat}
    {c c' : ClassDraft}
    {a : α}
    (hFinished : c.Finished className superName n)
    (hParams : ∀ t ∈ signature.params,
      t.Legible ∧ t.isValue = true)
    (hResult : signature.result.Legible)
    (hBody : ∀ frame m₀ m,
      Begun c superName access name signature frame m₀ →
      Gives body m₀ a m →
        Underway frame (Begun.entry c access name signature) m₀ m
          none)
    (hRun : Gives
      (Generating.method access name signature paramNames body) c a
      c') :
    c'.Finished className superName (n + 1) := by
  rcases gives_method hRun with
    ⟨m₀, m, member, m', hMethod, hGives, hFinish, hClose⟩
  have hClass := hFinished.name
  subst hClass
  rcases ClassDraft.header_method hMethod with
    ⟨hText, -, hAccess, hName, hPool⟩
  rcases MethodSig.parse_descriptor
      (fun t hIn => (hParams t hIn).1) hResult with
    ⟨d, params, result, hPrinted, -, hReads, hTys, -, hIsValue, -,
      hTy⟩
  rw [hText] at hPrinted
  cases hPrinted
  have hBegun : Begun c superName access name signature
      { className := c.name, superName, result } m₀ :=
    ⟨ClassDraft.blank_method hFinished.pool
        (fun t hIn => (hParams t hIn).2) hMethod,
      fun t hIn => (hParams t hIn).2, hAccess, rfl, rfl, hTy,
      hIsValue⟩
  rcases (hBody _ m₀ m hBegun hGives).finish hFinish with
    ⟨hGrown, hDone⟩
  rw [hPool] at hGrown
  rw [hAccess, hName, Begun.entry, ← hTys] at hDone
  refine hFinished.close hGrown ?_ hClose
  rintro _ ⟨rfl⟩
  refine ⟨name, m₀.descriptor, params, result, hReads, ?_⟩
  rw [hDone.access]
  exact hDone

/- The same for a method without parameters. -/
theorem ClassDraft.Finished.simpleMethod
    {access : UInt16}
    {name : String}
    {result : Ty}
    {body : Emitter Unit}
    {className superName : String}
    {n : Nat}
    {c c' : ClassDraft}
    {u : Unit}
    (hFinished : c.Finished className superName n)
    (hResult : result.Legible)
    (hBody : ∀ frame m₀ m,
      Begun c superName access name { result, params := [] } frame
        m₀ →
      Yields body m₀ u m →
        Underway frame
          (Begun.entry c access name { result, params := [] }) m₀
          m none)
    (hRun : Gives
      (Generating.simpleMethod access name { result, params := [] }
        body) c u c') :
    c'.Finished className superName (n + 1) := by
  refine hFinished.method (fun t hIn => absurd hIn List.not_mem_nil)
    hResult ?_ hRun
  intro frame m₀ m hBegun hGives
  exact hBody frame m₀ m hBegun (gives_emit.mp hGives)

end Stratagem
