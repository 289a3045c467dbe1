import Stratagem.Assembly.Step
import Stratagem.Proofs.Assembly.Gauge

/-
  Steps leave sound drafts sound, and only add to the pool.

  Unless a sum leaves its sixteen bits, they also leave the
  depth of the stack counted.  All this holds of every step of
  writing a method, and also of one that fails.

  Key definitions include:
    * `MethodDraft.Leads`
    * `Emitter.Safe`
    * `Instruction.onSlot`

  Main declarations:
    * `Step.safe_run`
    * `Step.leads_runAll`
    * `Step.sound_runAll`
-/

namespace Stratagem

open Jvm

------------------------------------------------------------
-- Steps
------------------------------------------------------------

/- The shortest instruction for an operation on a slot. -/
def Instruction.onSlot
    (offset : Nat)
    (short : Fin 4 → Opcode)
    (long : Opcode)
    (slot : Nat) : Instruction :=
  if h : slot < 4 then
    { offset, opcode := short ⟨slot, h⟩ }
  else if slot < 256 then
    { offset, opcode := long, operands := [UInt8.ofNat slot] }
  else
    { offset, opcode := long, wide := true
      operands := bigEndian 2 slot }

namespace MethodDraft

/- A local holds a value of its type from here on. -/
def stored
    (m : MethodDraft)
    (l : Local)
    (v : LocalVar) : MethodDraft :=
  { m with
    locals := m.locals.setIfInBounds l.index
      { v with start := v.start <|> some m.offset }
    slots := m.slots.setIfInBounds v.slot (.ofTy v.ty) }

/-
  A draft became another with more constants, as sound, and
  with a depth as well counted.
-/
structure Leads
    (m m' : MethodDraft) : Prop where
  grown : m.pool.Grown m'.pool
  sound : m.Sound → m'.Sound
  gauges : m.Gauges m'

namespace Leads

variable {m m₁ m' : MethodDraft}

theorem refl
    (m : MethodDraft) :
    m.Leads m :=
  ⟨.refl _, id, .refl m⟩

theorem trans
    (hFirst : m.Leads m₁)
    (hNext : m₁.Leads m') :
    m.Leads m' :=
  ⟨hFirst.grown.trans hNext.grown, hNext.sound ∘ hFirst.sound,
    hFirst.gauges.trans hNext.gauges⟩

/- Pool, locals, labels and stack are all that matters. -/
theorem of_same
    (hGrown : m.pool.Grown m'.pool)
    (hLocals : m'.locals = m.locals)
    (hSize : m'.slots.size = m.slots.size)
    (hLabels : m'.labels = m.labels)
    (hGauges : m.Gauges m') :
    m.Leads m' :=
  ⟨hGrown, fun hSound =>
    hSound.of_same hGrown hLocals hSize hLabels, hGauges⟩

end Leads

end MethodDraft

namespace Emitter

variable {α β : Type}

/-
  A step that adds to the pool and leaves sound drafts sound,
  also when it fails.
-/
abbrev Safe
    (x : Emitter α) : Prop :=
  Keeps MethodDraft.Leads x

theorem Safe.of_yields
    {x : Emitter α}
    {m m' : MethodDraft}
    {a : α}
    (hSafe : Safe x)
    (hRun : Yields x m a m') :
    m.Sound → m'.Sound :=
  (Keeps.of_yields hSafe hRun).sound

theorem safe_pure
    (a : α) :
    Safe (pure a) :=
  Keeps.pure .refl a

theorem safe_throw
    (e : ClassFileError) :
    Safe (throw e : Emitter α) :=
  Keeps.throw .refl e

theorem safe_get :
    Safe (get : Emitter MethodDraft) :=
  Keeps.get .refl

theorem Safe.bind
    {x : Emitter α}
    {f : α → Emitter β}
    (hFirst : Safe x)
    (hNext : ∀ a, Safe (f a)) :
    Safe (x >>= f) :=
  Keeps.bind .trans hFirst hNext

theorem Safe.discard
    {x : Emitter α}
    (hStep : Safe x) :
    Safe (discard x) :=
  hStep.bind fun _ => safe_pure ()

/- A change of the lines or the stack alone. -/
theorem safe_modify
    {f : MethodDraft → MethodDraft}
    (hPool : ∀ m, (f m).pool = m.pool)
    (hLocals : ∀ m, (f m).locals = m.locals)
    (hSize : ∀ m, (f m).slots.size = m.slots.size)
    (hLabels : ∀ m, (f m).labels = m.labels)
    (hGauges : ∀ m : MethodDraft, m.Gauges (f m)) :
    Safe (modify f) := by
  intro m
  refine .of_same ?_ (hLocals m) (hSize m) (hLabels m) (hGauges m)
  change m.pool.Grown (f m).pool
  rw [hPool]
  exact .refl _

theorem safe_pooled
    {x : Pooling α}
    (hGrows : x.Grows) :
    Safe (pooled x) := by
  intro m
  exact .of_same (hGrows m.pool) rfl rfl rfl
    (.of_same rfl rfl rfl rfl id)

theorem safe_property
    (r : Except TypeError α) :
    Safe (property r) := by
  cases r with
  | ok a => exact safe_pure a
  | error e => exact safe_throw _

theorem safe_write
    (opcode : Opcode)
    (operands : List UInt8) :
    Safe (write opcode operands) :=
  safe_modify (fun _ => rfl) (fun _ => rfl) (fun _ => rfl)
    (fun _ => rfl) fun _ => .of_same rfl rfl rfl rfl id

theorem safe_push
    (v : VType) :
    Safe (push v) :=
  safe_modify (fun _ => rfl) (fun _ => rfl) (fun _ => rfl)
    (fun _ => rfl) fun m => .push m v

theorem leads_pop
    (m : MethodDraft) :
    m.Leads m.pop.2 := by
  have hGauges := MethodDraft.Gauges.pop m
  unfold MethodDraft.pop at hGauges ⊢
  split at hGauges <;>
    exact .of_same (.refl _) rfl rfl rfl hGauges

theorem sound_pop
    {m : MethodDraft}
    (hSound : m.Sound) :
    m.pop.2.Sound :=
  (leads_pop m).sound hSound

theorem safe_pop :
    Safe pop :=
  leads_pop

theorem leads_popMany
    (n : Nat)
    (m : MethodDraft) :
    m.Leads (m.popMany n) := by
  induction n generalizing m with
  | zero => exact .refl m
  | succ n ih => exact (leads_pop m).trans (ih m.pop.2)

theorem safe_terminate :
    Safe (modify MethodDraft.terminate) :=
  safe_modify (fun _ => rfl) (fun _ => rfl) (fun _ => rfl)
    (fun _ => rfl) .terminate

theorem safe_ldc
    (index : UInt16) :
    Safe (ldc index) := by
  unfold ldc
  split <;> exact safe_write _ _

/- A constant from the pool, whatever is done with its index. -/
theorem safe_constant
    {c : Constant}
    {f : UInt16 → Emitter Unit}
    (hShort : c.IsShort)
    (hNext : ∀ i, Safe (f i)) :
    Safe (pooled (Pooling.add c) >>= f) :=
  (safe_pooled (Pooling.grows_add hShort)).bind hNext

theorem safe_iconst
    (n : Int32) :
    Safe (iconst n) := by
  unfold iconst
  dsimp only
  split
  · exact (safe_write _ _).bind fun _ => safe_push _
  · split
    · exact (safe_write _ _).bind fun _ => safe_push _
    · split
      · exact (safe_write _ _).bind fun _ => safe_push _
      · exact safe_constant (c := .integer n) trivial fun i =>
          (safe_ldc i).bind fun _ => safe_push _

/- Both forms of a constant are enough to look at. -/
theorem shortOr_cases
    {n : Nat}
    [DecidableEq α]
    {P : Emitter Unit → Prop}
    {short : Fin n → Opcode}
    {value : Fin n → α}
    {x : α}
    {v : VType}
    {long : Emitter Unit}
    (hShort : ∀ k, value k = x →
      P (do write (short k) []; push v))
    (hLong : P long) :
    P (shortOr short value x v long) := by
  unfold shortOr
  split
  case h_1 k hFound =>
      exact hShort k (by simpa using List.find?_some hFound)
  case h_2 => exact hLong

theorem safe_pushWide
    {c : Constant}
    (hShort : c.IsShort)
    (v : VType) :
    Safe (pushWide c v) :=
  safe_constant hShort fun _ =>
    (safe_write _ _).bind fun _ => safe_push v

/- A constant is pushed so, in either form. -/
theorem safe_shortOr
    {n : Nat}
    [DecidableEq α]
    {long : Emitter Unit}
    (short : Fin n → Opcode)
    (value : Fin n → α)
    (x : α)
    (v : VType)
    (hLong : Safe long) :
    Safe (shortOr short value x v long) :=
  shortOr_cases (fun _ _ => (safe_write _ _).bind fun _ => safe_push v)
    hLong

theorem safe_lconst
    (n : Int64) :
    Safe (lconst n) :=
  safe_shortOr _ _ _ _ (safe_pushWide (c := .long n) trivial _)

theorem safe_fconst
    (x : Binary32) :
    Safe (fconst x) :=
  safe_shortOr _ _ _ _ <|
    safe_constant (c := .float x) trivial fun i =>
      (safe_ldc i).bind fun _ => safe_push _

theorem safe_dconst
    (x : Binary64) :
    Safe (dconst x) :=
  safe_shortOr _ _ _ _ (safe_pushWide (c := .double x) trivial _)

theorem safe_ldcString
    (s : String) :
    Safe (ldcString s) :=
  (safe_pooled (Pooling.grows_string s)).bind fun i =>
    (safe_ldc i).bind fun _ => safe_push _

theorem safe_ldcClass
    (name : String) :
    Safe (ldcClass name) :=
  (safe_pooled (Pooling.grows_classRef name)).bind fun i =>
    (safe_ldc i).bind fun _ => safe_push _

theorem safe_newLocal
    (name : String)
    (ty : Ty) :
    Safe (newLocal name ty) := by
  intro m
  unfold outcomeOf newLocal
  split
  case isTrue hRoom =>
      exact ⟨.refl _, fun hSound => hSound.alloc hRoom,
        .of_same rfl rfl rfl rfl id⟩
  case isFalse => exact .refl m

theorem onSlot_eq
    (short : Fin 4 → Opcode)
    (long : Opcode)
    (slot : Nat) :
    onSlot short long slot = modify fun m =>
      m.append
        (.instruction (.onSlot m.offset short long slot)) := by
  unfold onSlot Instruction.onSlot
  split
  · rfl
  · split <;> rfl

theorem safe_onSlot
    (short : Fin 4 → Opcode)
    (long : Opcode)
    (slot : Nat) :
    Safe (onSlot short long slot) := by
  rw [onSlot_eq]
  exact safe_modify (fun _ => rfl) (fun _ => rfl) (fun _ => rfl)
    (fun _ => rfl) fun _ => .of_same rfl rfl rfl rfl id

theorem safe_load
    (l : Local) :
    Safe (load l) := by
  refine safe_get.bind fun m => ?_
  split
  · exact safe_pure ()
  · exact safe_get.bind fun _ =>
      (safe_onSlot _ _ _).bind fun _ => safe_push _

/- A stored value leaves the types of the locals alone. -/
theorem types_stored
    {m : MethodDraft}
    {l : Local}
    {v : LocalVar}
    (hLocal : m.locals[l.index]? = some v) :
    (m.stored l v).types = m.types := by
  have hSame : m.types[l.index]? = some v.ty := by
    rw [MethodDraft.Sound.types_getElem?, hLocal]
    rfl
  rcases List.getElem?_eq_some_iff.mp hSame with ⟨hLt, hGet⟩
  unfold MethodDraft.stored MethodDraft.types
  rw [Array.toList_setIfInBounds, List.map_set]
  dsimp only
  rw [← hGet]
  exact List.set_getElem_self hLt

/- And it leaves every local in its place. -/
theorem sound_stored
    {m : MethodDraft}
    (hSound : m.Sound)
    {l : Local}
    {v : LocalVar}
    (hLocal : m.locals[l.index]? = some v) :
    (m.stored l v).Sound := by
  have hTypes := types_stored hLocal
  have hSize : (m.stored l v).slots.size = m.slots.size := by
    simp [MethodDraft.stored]
  refine ⟨hSound.pool, ?_, ?_, ?_, ?_⟩
  · intro i w hw
    rw [hTypes]
    unfold MethodDraft.stored at hw
    rw [Array.getElem?_setIfInBounds] at hw
    split at hw
    case isTrue hSame =>
        split at hw
        case isTrue =>
            cases hw
            rw [← hSame]
            exact hSound.placed l.index v hLocal
        case isFalse => cases hw
    case isFalse => exact hSound.placed i w hw
  · rw [hSize, hTypes]
    exact hSound.size
  · rw [hSize]
    exact hSound.small
  · rw [hSize]
    exact hSound.entries

/- What storing into a local that exists does. -/
theorem outcomeOf_store
    {m : MethodDraft}
    {l : Local}
    {v : LocalVar}
    (hLocal : m.locals[l.index]? = some v) :
    outcomeOf (store l) m =
      (.ok ⟨⟩, (m.pop.2.append (.instruction
        (.onSlot m.pop.2.offset (.storeShort (.ofTy v.ty))
          (.store (.ofTy v.ty)) v.slot))).stored l v) := by
  have hGet : outcomeOf (get : Emitter MethodDraft) m =
      (.ok m, m) := rfl
  unfold store
  simp only [onSlot_eq]
  rw [outcomeOf_bind, hGet]
  dsimp only
  rw [hLocal]
  rfl

/- What storing into a local that does not exist does. -/
theorem outcomeOf_store_none
    {m : MethodDraft}
    {l : Local}
    (hLocal : m.locals[l.index]? = none) :
    outcomeOf (store l) m = (.ok ⟨⟩, m) := by
  have hGet : outcomeOf (get : Emitter MethodDraft) m =
      (.ok m, m) := rfl
  unfold store
  rw [outcomeOf_bind, hGet]
  dsimp only
  rw [hLocal]
  rfl

theorem locals_pop
    (m : MethodDraft) :
    m.pop.2.locals = m.locals := by
  unfold MethodDraft.pop
  split <;> rfl

theorem safe_store
    (l : Local) :
    Safe (store l) := by
  intro m
  cases hLocal : m.locals[l.index]? with
  | none =>
      rw [outcomeOf_store_none hLocal]
      exact .refl m
  | some v =>
      rw [outcomeOf_store hLocal]
      rw [← locals_pop m] at hLocal
      have hWritten : MethodDraft.Leads m (m.pop.2.append
          (.instruction (.onSlot m.pop.2.offset
            (.storeShort (.ofTy v.ty)) (.store (.ofTy v.ty))
              v.slot))) :=
        (leads_pop m).trans (.of_same (.refl _) rfl rfl rfl
          (.of_same rfl rfl rfl rfl id))
      exact ⟨hWritten.grown,
        fun hSound => sound_stored (hWritten.sound hSound) hLocal,
        hWritten.gauges.trans (.of_same rfl rfl rfl rfl id)⟩

theorem safe_loadThis :
    Safe loadThis := by
  refine safe_get.bind fun m => ?_
  split
  · exact safe_load _
  · exact safe_pure ()

theorem safe_drop :
    Safe drop :=
  safe_pop.bind fun _ => safe_write _ _

theorem safe_dup :
    Safe dup :=
  (safe_write _ _).bind fun _ => safe_pop.bind fun v =>
    (safe_push v).bind fun _ => safe_push v

theorem safe_swap :
    Safe swap :=
  (safe_write _ _).bind fun _ => safe_pop.bind fun a =>
    safe_pop.bind fun b =>
      (safe_push a).bind fun _ => safe_push b

theorem safe_new
    (name : String) :
    Safe (new name) :=
  (safe_pooled (Pooling.grows_classRef name)).bind fun _ =>
    safe_get.bind fun _ => (safe_write _ _).bind fun _ =>
      safe_push _

theorem safe_checkcast
    (ty : Ty) :
    Safe (checkcast ty) := by
  unfold checkcast
  split
  · split
    · exact safe_pure ()
    · exact (safe_pooled (Pooling.grows_classRef _)).bind fun _ =>
        (safe_write _ _).bind fun _ =>
          safe_pop.discard.bind fun _ => safe_push _
  · exact safe_throw _

theorem safe_athrow :
    Safe athrow :=
  (safe_write _ _).bind fun _ => safe_pop.discard.bind fun _ =>
    safe_terminate

theorem safe_field
    (owner name : String)
    (ty : Ty) :
    Safe (field owner name ty) :=
  (safe_property _).bind fun _ =>
    safe_pooled (Pooling.grows_member _ _ _ _)

theorem safe_getstatic
    (owner name : String)
    (ty : Ty) :
    Safe (getstatic owner name ty) :=
  (safe_field owner name ty).bind fun _ =>
    (safe_write _ _).bind fun _ => safe_push _

theorem safe_putstatic
    (owner name : String)
    (ty : Ty) :
    Safe (putstatic owner name ty) :=
  (safe_field owner name ty).bind fun _ =>
    (safe_write _ _).bind fun _ => safe_pop.discard

theorem safe_popReceiver
    (kind : CallKind)
    (owner name : String) :
    Safe (popReceiver kind owner name) := by
  unfold popReceiver
  split
  · exact safe_pure ()
  · refine safe_pop.bind fun receiver => ?_
    split
    · refine safe_modify (fun _ => rfl) (fun _ => rfl) ?_
        (fun _ => rfl) fun m => .replace m receiver _
      intro m
      simp [MethodDraft.replace]
    · exact safe_pure ()

/- A call is written, and its slots are added up. -/
theorem writeCall_eq
    (kind : CallKind)
    (index : UInt16)
    (params : List Ty) :
    writeCall kind index params = (do
      write kind.opcode (be16 index ++ countOperands kind params)
      modify (·.addUp (countedSlots kind params))) :=
  rfl

theorem safe_writeCall
    (kind : CallKind)
    (index : UInt16)
    (params : List Ty) :
    Safe (writeCall kind index params) := by
  rw [writeCall_eq]
  exact (safe_write _ _).bind fun _ => safe_modify (fun _ => rfl)
    (fun _ => rfl) (fun _ => rfl) (fun _ => rfl) fun m => .addUp m _

theorem safe_invoke
    (kind : CallKind)
    (owner name descriptor : String) :
    Safe (invoke kind owner name descriptor) := by
  unfold invoke
  split
  · exact safe_throw _
  · refine (safe_pooled (Pooling.grows_member _ _ _ _)).bind
      fun _ => (safe_writeCall _ _ _).bind fun _ =>
        Safe.bind (fun m => leads_popMany _ m)
          fun _ => (safe_popReceiver _ _ _).bind fun _ => ?_
    split
    · exact safe_push _
    · exact safe_pure ()

theorem safe_box
    (ty : Ty) :
    Safe (box ty) := by
  unfold box
  split
  · exact safe_pure ()
  · exact (safe_property _).bind fun _ =>
      (safe_property _).bind fun _ =>
        (safe_property _).bind fun _ => safe_invoke _ _ _ _

theorem safe_unbox
    (ty : Ty) :
    Safe (unbox ty) := by
  unfold unbox
  split
  · exact (safe_checkcast _).bind fun _ =>
      (safe_property _).bind fun _ =>
        (safe_property _).bind fun _ => safe_invoke _ _ _ _
  · exact safe_checkcast _

------------------------------------------------------------
-- Labels
------------------------------------------------------------

theorem safe_newLabel :
    Safe newLabel := by
  intro m
  exact ⟨.refl _, fun hSound => ⟨hSound.pool, hSound.placed,
    hSound.size, hSound.small,
    hSound.entries.push⟩, .newLabel m⟩

theorem entry_le
    {m : MethodDraft}
    (hSound : m.Sound)
    (i : Nat)
    {e : Snapshot}
    (hEntry : (m.labels.getD i {}).entry = some e) :
    e.slots.size ≤ m.slots.size :=
  hSound.entries.get i hEntry

theorem grown_bind
    (m : MethodDraft)
    (l : Label) :
    m.pool.Grown (m.bind l).pool := by
  unfold MethodDraft.bind
  dsimp only
  split <;> exact .refl _

theorem sound_bind
    {m : MethodDraft}
    (hSound : m.Sound)
    (l : Label) :
    (m.bind l).Sound := by
  unfold MethodDraft.bind
  dsimp only
  split
  case isTrue => exact hSound.of_same (.refl _) rfl rfl rfl
  case isFalse =>
      have hEntry : ((m.labels.getD l.index {}).entry.getD
          m.snapshot).slots.size ≤ m.slots.size :=
        hSound.entries.known (Nat.le_refl _) l.index
      have hResumed : (m.resume ((m.labels.getD l.index {}).entry.getD
          m.snapshot)).slots.size = m.slots.size := by
        simp only [MethodDraft.resume, Array.size_append,
          Array.size_replicate]
        omega
      refine ⟨hSound.pool, hSound.placed, ?_, ?_, ?_⟩
      · exact hResumed.trans hSound.size
      · rw [hResumed]
        exact hSound.small
      · rw [hResumed]
        refine hSound.entries.set ?_ _
        intro e he
        cases he
        exact hEntry

theorem sound_jump
    {m : MethodDraft}
    (hSound : m.Sound)
    (opcode : Opcode)
    (l : Label) :
    (m.jump opcode l).Sound :=
  ⟨hSound.pool, hSound.placed, hSound.size, hSound.small,
    hSound.entries.set (fun _ he =>
      hSound.entries.first (Nat.le_refl _) l.index he) _⟩

theorem safe_jump
    (opcode : Opcode)
    (l : Label) :
    Safe (modify (·.jump opcode l)) :=
  fun m => ⟨.refl _, fun hSound => sound_jump hSound opcode l,
    .jump m opcode l⟩

theorem safe_returnValue
    (ty : Ty) :
    Safe (returnValue ty) := by
  unfold returnValue
  split
  · exact (safe_write _ _).bind fun _ => safe_terminate
  · exact safe_pop.discard.bind fun _ =>
      (safe_write _ _).bind fun _ => safe_terminate

end Emitter

------------------------------------------------------------
-- Runs
------------------------------------------------------------

namespace Step

open Emitter

/- Every step leaves a sound draft sound. -/
theorem safe_run
    (s : Step) :
    Safe s.run := by
  cases s with
  | aconstNull => exact (safe_write _ _).bind fun _ => safe_push _
  | iconst n => exact safe_iconst n
  | lconst n => exact safe_lconst n
  | fconst x => exact safe_fconst x
  | dconst x => exact safe_dconst x
  | ldcString s => exact safe_ldcString s
  | ldcClass name => exact safe_ldcClass name
  | load l => exact safe_load l
  | store l => exact safe_store l
  | newLocal name ty => exact (safe_newLocal name ty).discard
  | loadThis => exact safe_loadThis
  | drop => exact safe_drop
  | dup => exact safe_dup
  | swap => exact safe_swap
  | new name => exact safe_new name
  | checkcast ty => exact safe_checkcast ty
  | athrow => exact safe_athrow
  | getstatic owner name ty => exact safe_getstatic owner name ty
  | putstatic owner name ty => exact safe_putstatic owner name ty
  | invoke kind owner name d => exact safe_invoke kind owner name d
  | box ty => exact safe_box ty
  | unbox ty => exact safe_unbox ty
  | newLabel => exact safe_newLabel.discard
  | bind l =>
      exact fun m => ⟨grown_bind m l, fun hSound =>
        sound_bind hSound l, .bind m l⟩
  | goto l => exact (safe_jump .goto l).bind fun _ => safe_terminate
  | ifnull l =>
      exact safe_pop.discard.bind fun _ => safe_jump _ l
  | ifnonnull l =>
      exact safe_pop.discard.bind fun _ => safe_jump _ l
  | returnValue ty => exact safe_returnValue ty

/- Any steps, whether or not they fail, leave it so. -/
theorem leads_runAll
    (steps : List Step)
    (m : MethodDraft) :
    m.Leads (runAll steps m) := by
  induction steps generalizing m with
  | nil => exact .refl m
  | cons s steps ih => exact (s.safe_run m).trans (ih (s.apply m))

theorem sound_runAll
    (steps : List Step)
    {m : MethodDraft}
    (hSound : m.Sound) :
    (runAll steps m).Sound :=
  (leads_runAll steps m).sound hSound

end Step

end Stratagem
