import Stratagem.Proofs.Assembly.Emission
import Stratagem.Proofs.Bytes.RoundTrip

/-
  Writing constants and locals.

  Main declarations:
    * `emits_iconst`
    * `emits_lconst`
    * `emits_fconst`
    * `emits_dconst`
    * `emits_ldcString`
    * `emits_load`
    * `emits_store`
    * `emits_newLocal`
-/

namespace Stratagem

open Jvm

------------------------------------------------------------
-- Constants
------------------------------------------------------------

/- Two bytes make the number that they were made from. -/
theorem Instruction.word?_bigEndian
    {i : Instruction}
    {n : Nat}
    (more : List UInt8)
    (hOperands : i.operands = bigEndian 2 n ++ more) :
    i.word? = some (UInt16.ofNat n) := by
  have hBack := ofBigEndian_bigEndian 2 n
  have hBytes : bigEndian 2 n =
      [UInt8.ofNat (n / 256), UInt8.ofNat n] := rfl
  rw [hBytes] at hBack hOperands
  unfold Instruction.word?
  rw [hOperands]
  simp only [List.cons_append, hBack]
  congr 1
  rw [← UInt16.toNat_inj, UInt16.toNat_ofNat', UInt16.toNat_ofNat']
  exact Nat.mod_mod n 65536

theorem Instruction.word?_be16
    {i : Instruction}
    {w : UInt16}
    (more : List UInt8)
    (hOperands : i.operands = be16 w ++ more) :
    i.word? = some w := by
  rw [Instruction.word?_bigEndian more hOperands, UInt16.ofNat_toNat]

section Constants

open Emitter

variable {m m' : MethodDraft} {u : Unit}

/- One instruction that pushes a constant. -/
theorem emits_push
    {i : Instruction}
    {l : Literal}
    {p : ConstantPool}
    (hGrown : m.pool.Grown p)
    (hPlace : i.offset = m.offset)
    (hLegal : i.Legal)
    (hAction : i.action? p = some (.push l)) :
    Emits m [.push l] []
      (({ m with pool := p }.append (.instruction i)).push
        l.vtype) := by
  refine Emits.act hGrown hPlace hLegal hAction
    (by simp [Action.slot?]) ((MethodDraft.SameCode.refl _).push _) ?_
  rintro frame s s' hTracks hCheck hHigh -
  cases hCheck
  exact hTracks.push rfl (by cases l <;> intro h <;> cases h) hHigh

/- The instruction that loads a constant from the pool. -/
theorem yields_ldc
    {index : UInt16}
    {l : Literal}
    (hLiteral : m.pool.literalAt? index = some l)
    (hNarrow : l.vtype.slots = 1)
    (hRun : Yields (ldc index) m u m') :
    ∃ i : Instruction, m' = m.append (.instruction i) ∧
      i.offset = m.offset ∧ i.Legal ∧
      i.action? m.pool = some (.push l) := by
  unfold ldc at hRun
  split at hRun
  case isTrue hShort =>
      refine ⟨_, yields_write.mp hRun, rfl, ⟨by simp, rfl⟩, ?_⟩
      have hIndex : index.toUInt8.toUInt16 = index := by
        rw [UInt16.le_iff_toNat_le] at hShort
        rw [← UInt16.toNat_inj]
        simp only [UInt8.toNat_toUInt16, UInt16.toNat_toUInt8]
        exact Nat.mod_eq_of_lt (Nat.lt_succ_of_le hShort)
      simp [Instruction.action?, Instruction.literal?,
        Instruction.constant?, hIndex, hLiteral, hNarrow]
  case isFalse hLong =>
      refine ⟨_, yields_write.mp hRun, rfl, ⟨by simp, rfl⟩, ?_⟩
      have hWord : Instruction.word? {
          offset := m.offset, opcode := .ldcW,
          operands := be16 index } = some index :=
        Instruction.word?_be16 [] (by simp)
      simp [Instruction.action?, Instruction.literal?,
        Instruction.constant?, hWord, hLiteral, hNarrow,
        Opcode.takesConstant]

/- A constant that is first added to the pool. -/
theorem emits_pooled_ldc
    {x : Pooling UInt16}
    {l : Literal}
    (hGrows : x.Grows)
    (hNarrow : l.vtype.slots = 1)
    (hLiteral : ∀ index p, Yields x m.pool index p →
      p.literalAt? index = some l)
    (hRun : Yields (do
      let index ← pooled x
      ldc index
      push l.vtype) m u m') :
    Emits m [.push l] [] m' := by
  simp only [yields_bind, yields_pooled, yields_push] at hRun
  rcases hRun with ⟨index, _, ⟨p, hPool, rfl⟩, _, m₂, hLdc, rfl⟩
  rcases yields_ldc (hLiteral index p hPool) hNarrow hLdc with
    ⟨i, rfl, hPlace, hLegal, hAction⟩
  exact emits_push (hGrows.of_yields hPool) hPlace hLegal hAction

/- A constant of two slots that is first added to the pool. -/
theorem emits_pooled_ldc2W
    {c : Constant}
    {l : Literal}
    (hIndexed : m.pool.Indexed)
    (hShort : c.IsShort)
    (hWide : l.vtype.slots = 2)
    (hLiteral : ∀ (p : ConstantPool) (index : UInt16),
      p.get? index = some c → p.literalAt? index = some l)
    (hRun : Yields (do
      let index ← pooled (Pooling.add c)
      write .ldc2W (be16 index)
      push l.vtype) m u m') :
    Emits m [.push l] [] m' := by
  simp only [yields_bind, yields_pooled, yields_push,
    yields_write] at hRun
  rcases hRun with ⟨index, _, ⟨p, hPool, rfl⟩, _, _, rfl, rfl⟩
  have hGet := Pooling.add_get? hIndexed hPool
  have hWord : Instruction.word? {
      offset := m.offset, opcode := .ldc2W,
      operands := be16 index } = some index :=
    Instruction.word?_be16 [] (by simp)
  refine emits_push ((Pooling.grows_add hShort).of_yields hPool)
    rfl ⟨by simp, rfl⟩ ?_
  simp [Instruction.action?, Instruction.literal?,
    Instruction.constant?, hWord, hLiteral p index hGet, hWide,
    Opcode.takesConstant]

/- One short instruction that pushes a constant. -/
theorem emits_short
    {opcode : Opcode}
    {operands : List UInt8}
    {l : Literal}
    (hRun : Yields (do
      write opcode operands
      push l.vtype) m u m')
    (hLegal : Instruction.Legal
      { offset := m.offset, opcode, operands })
    (hAction : Instruction.action? m.pool
      { offset := m.offset, opcode, operands } =
        some (.push l)) :
    Emits m [.push l] [] m' := by
  simp only [yields_bind, yields_push, yields_write] at hRun
  rcases hRun with ⟨_, _, rfl, rfl⟩
  exact emits_push (.refl _) rfl hLegal hAction

theorem emits_iconst
    {n : Int32}
    (hIndexed : m.pool.Indexed)
    (hRun : Yields (iconst n) m u m') :
    Emits m [.push (.int n)] [] m' := by
  unfold iconst at hRun
  dsimp only at hRun
  split at hRun
  case isTrue hTiny =>
      refine emits_short hRun ⟨by simp, rfl⟩ ?_
      have hBack : (((n.toInt + 1).toNat : Int) - 1) = n.toInt := by
        omega
      simp only [Instruction.action?, hBack, Int32.ofInt_toInt]
  case isFalse =>
      split at hRun
      case isTrue hByte =>
          refine emits_short hRun ⟨by simp, rfl⟩ ?_
          have hBack : n.toInt8.toInt32 = n := by
            rw [← Int32.toInt_inj, Int8.toInt_toInt32,
              Int32.toInt_toInt8]
            exact Int.bmod_eq_of_le (by omega) (by omega)
          simp [Instruction.action?, hBack]
      case isFalse =>
          split at hRun
          case isTrue hShort =>
              refine emits_short hRun ⟨by simp, rfl⟩ ?_
              have hBack : n.toInt16.toInt32 = n := by
                rw [← Int32.toInt_inj, Int16.toInt_toInt32,
                  Int32.toInt_toInt16]
                exact Int.bmod_eq_of_le (by omega) (by omega)
              have hWord : Instruction.word? {
                  offset := m.offset, opcode := .sipush,
                  operands := be16 n.toInt16.toUInt16 } =
                    some n.toInt16.toUInt16 :=
                Instruction.word?_be16 [] (by simp)
              simp [Instruction.action?, hWord, hBack]
          case isFalse =>
              refine emits_pooled_ldc (l := .int n)
                (Pooling.grows_add (c := .integer n) trivial) rfl
                ?_ hRun
              intro index p hPool
              have hGet := Pooling.add_get? hIndexed hPool
              simp [ConstantPool.literalAt?, hGet]

/- A constant in its short form, or else as given. -/
theorem emits_shortOr
    {n : Nat}
    {α : Type}
    [DecidableEq α]
    {short : Fin n → Opcode}
    {value : Fin n → α}
    {x : α}
    {long : Emitter Unit}
    {l : α → Literal}
    (hLegal : ∀ k, Instruction.Legal
      { offset := m.offset, opcode := short k })
    (hAction : ∀ k, Instruction.action? m.pool
      { offset := m.offset, opcode := short k } =
        some (.push (l (value k))))
    (hLong : Yields long m u m' → Emits m [.push (l x)] [] m')
    (hRun : Yields (shortOr short value x (l x).vtype long) m u m') :
    Emits m [.push (l x)] [] m' := by
  revert hRun
  refine shortOr_cases (P := fun y => Yields y m u m' → _) ?_ hLong
  rintro k rfl hRun
  exact emits_short hRun (hLegal k) (hAction k)

theorem emits_lconst
    {n : Int64}
    (hIndexed : m.pool.Indexed)
    (hRun : Yields (lconst n) m u m') :
    Emits m [.push (.long n)] [] m' := by
  refine emits_shortOr (l := .long) (fun _ => ⟨by simp, rfl⟩)
    (fun _ => rfl) (emits_pooled_ldc2W (c := .long n) (l := .long n)
      hIndexed trivial rfl ?_) hRun
  intro p index hGet
  simp [ConstantPool.literalAt?, hGet]

theorem emits_fconst
    {x : Binary32}
    (hIndexed : m.pool.Indexed)
    (hRun : Yields (fconst x) m u m') :
    Emits m [.push (.float x)] [] m' := by
  refine emits_shortOr (l := .float) (fun _ => ⟨by simp, rfl⟩)
    (fun _ => rfl) (emits_pooled_ldc (l := .float x)
      (Pooling.grows_add (c := .float x) trivial) rfl ?_) hRun
  intro index p hPool
  have hGet := Pooling.add_get? hIndexed hPool
  simp [ConstantPool.literalAt?, hGet]

theorem emits_dconst
    {x : Binary64}
    (hIndexed : m.pool.Indexed)
    (hRun : Yields (dconst x) m u m') :
    Emits m [.push (.double x)] [] m' := by
  refine emits_shortOr (l := .double) (fun _ => ⟨by simp, rfl⟩)
    (fun _ => rfl) (emits_pooled_ldc2W (c := .double x)
      (l := .double x) hIndexed trivial rfl ?_) hRun
  intro p index hGet
  simp [ConstantPool.literalAt?, hGet]

theorem emits_ldcString
    {s : String}
    (hIndexed : m.pool.Indexed)
    (hRun : Yields (ldcString s) m u m') :
    Emits m [.push (.string s)] [] m' := by
  refine emits_pooled_ldc (l := .string s)
    (Pooling.grows_string s) rfl ?_ hRun
  intro index p hPool
  rcases yields_bind.mp hPool with ⟨value, p₁, hText, hAdd⟩
  have hGrown := (Pooling.grows_text s).of_yields hText
  have hMore :=
    (Pooling.grows_add (c := .string value) trivial).of_yields hAdd
  have hGet := Pooling.add_get? (hGrown.indexed hIndexed) hAdd
  have hAt := hMore.within.textAt?
    (Pooling.text_textAt? hIndexed hText)
  simp [ConstantPool.literalAt?, hGet, hAt]

end Constants

------------------------------------------------------------
-- Locals
------------------------------------------------------------

theorem Instruction.offset_onSlot
    (offset : Nat)
    (short : Fin 4 → Opcode)
    (long : Opcode)
    (slot : Nat) :
    (Instruction.onSlot offset short long slot).offset =
      offset := by
  unfold Instruction.onSlot
  split
  · rfl
  · split <;> rfl

/- An operation on a slot names it in one of three ways. -/
theorem Instruction.onSlot_cases
    {P : Instruction → Prop}
    {offset : Nat}
    {short : Fin 4 → Opcode}
    {long : Opcode}
    {slot : Nat}
    (hShort : ∀ h : slot < 4,
      P { offset, opcode := short ⟨slot, h⟩ })
    (hLong : slot < 256 →
      P { offset, opcode := long, operands := [UInt8.ofNat slot] })
    (hWide : P { offset, opcode := long, wide := true
                 operands := bigEndian 2 slot }) :
    P (Instruction.onSlot offset short long slot) := by
  unfold Instruction.onSlot
  split
  case isTrue h => exact hShort h
  case isFalse =>
      split
      case isTrue h => exact hLong h
      case isFalse => exact hWide

section Locals

open Emitter

variable {m m' : MethodDraft} {u : Unit} {l : Local} {t : Ty}

theorem legal_onSlot_load
    (offset : Nat)
    (f : Family)
    (slot : Nat) :
    (Instruction.onSlot offset (.loadShort f) (.load f)
      slot).Legal := by
  refine Instruction.onSlot_cases (fun _ => ?_) (fun _ => ?_) ?_
  · exact ⟨by simp, rfl⟩
  · exact ⟨by simp, rfl⟩
  · exact ⟨rfl, rfl⟩

theorem legal_onSlot_store
    (offset : Nat)
    (f : Family)
    (slot : Nat) :
    (Instruction.onSlot offset (.storeShort f) (.store f)
      slot).Legal := by
  refine Instruction.onSlot_cases (fun _ => ?_) (fun _ => ?_) ?_
  · exact ⟨by simp, rfl⟩
  · exact ⟨by simp, rfl⟩
  · exact ⟨rfl, rfl⟩

/- All three ways name the same slot. -/
theorem action?_onSlot
    {p : ConstantPool}
    {short : Fin 4 → Opcode}
    {long : Opcode}
    {f : Family}
    {slot : Nat}
    (make : Nat → Action)
    (offset : Nat)
    (hShort : ∀ k, Instruction.action? p
      { offset, opcode := short k } = some (make k))
    (hLong : ∀ i : Instruction, i.opcode = long →
      i.action? p = i.slot?.map fun place => make place.1)
    (hNone : long.shortSlot? = none)
    (hFamily : long.localFamily? = some f)
    (hSmall : slot ≤ 65535) :
    (Instruction.onSlot offset short long slot).action? p =
      some (make slot) := by
  refine Instruction.onSlot_cases
    (P := fun i => i.action? p = some (make slot))
    (fun h => hShort ⟨slot, h⟩) (fun hByte => ?_) ?_
  · have hNat : (UInt8.ofNat slot).toNat = slot := by
      rw [UInt8.toNat_ofNat']
      exact Nat.mod_eq_of_lt hByte
    rw [hLong _ rfl]
    simp [Instruction.slot?, hNone, hFamily, hNat]
  · have hWord := Instruction.word?_bigEndian [] (n := slot)
      (i := { offset, opcode := long, wide := true
              operands := bigEndian 2 slot }) (by simp)
    have hNat : (UInt16.ofNat slot).toNat = slot := by
      rw [UInt16.toNat_ofNat']
      exact Nat.mod_eq_of_lt (Nat.lt_succ_of_le hSmall)
    rw [hLong _ rfl]
    simp [Instruction.slot?, hNone, hFamily, hWord, hNat]

theorem action?_onSlot_load
    (p : ConstantPool)
    (offset : Nat)
    (f : Family)
    {slot : Nat}
    (hSmall : slot ≤ 65535) :
    (Instruction.onSlot offset (.loadShort f) (.load f)
      slot).action? p = some (.load f slot) := by
  refine action?_onSlot (.load f) offset (fun _ => rfl) ?_
    rfl rfl hSmall
  intro i hOpcode
  simp [Instruction.action?, hOpcode]

theorem action?_onSlot_store
    (p : ConstantPool)
    (offset : Nat)
    (f : Family)
    {slot : Nat}
    (hSmall : slot ≤ 65535) :
    (Instruction.onSlot offset (.storeShort f) (.store f)
      slot).action? p = some (.store f slot) := by
  refine action?_onSlot (.store f) offset (fun _ => rfl) ?_
    rfl rfl hSmall
  intro i hOpcode
  simp [Instruction.action?, hOpcode]

/- A local is where the types of the locals put it. -/
theorem exists_local
    (hSound : m.Sound)
    (hType : m.types[l.index]? = some t) :
    ∃ v : LocalVar, m.locals[l.index]? = some v ∧ v.ty = t ∧
      v.slot = Ty.slotOf m.types l.index ∧
      v.slot + t.width ≤ Ty.widths m.types ∧ v.slot ≤ 65535 := by
  have hRange := Ty.slotOf_add_width_le_widths hType
  have hSmall := hSound.small
  rw [hSound.size] at hSmall
  rw [MethodDraft.Sound.types_getElem?] at hType
  rcases Option.map_eq_some_iff.mp hType with ⟨v, hv, rfl⟩
  have hSlot := hSound.placed l.index v hv
  refine ⟨v, hv, rfl, hSlot, ?_, ?_⟩
  · rw [hSlot]
    exact hRange
  · omega

/- What is known of a loaded local is as wide as its values. -/
theorem heldIn_spec
    {v : LocalVar}
    {s : TypeState}
    (hTracks : m.Tracks s.stack)
    (hLocal : m.locals[l.index]? = some v) :
    (heldIn v m).slots = v.ty.width ∧ heldIn v m ≠ .top := by
  have hIn : v.ty ∈ m.types :=
    List.mem_map.mpr ⟨v, by
      rw [Array.mem_toList_iff]
      exact Array.mem_of_getElem? hLocal, rfl⟩
  have hFamily := VType.family?_ofTy (hTracks.values v.ty hIn)
  have hOwn : (VType.ofTy v.ty).slots = v.ty.width :=
    VType.slots_of_family? hFamily
  have hReal : VType.ofTy v.ty ≠ .top := by
    intro hTop
    rw [hTop] at hFamily
    cases hFamily
  unfold heldIn
  rw [Array.getD_eq_getD_getElem?]
  cases hHeld : m.slots[v.slot]? with
  | none => exact ⟨hOwn, hReal⟩
  | some w =>
      rcases hTracks.held l.index v w hLocal hHeld with rfl | hWidth
      · exact ⟨hOwn, hReal⟩
      · cases w with
        | top => exact ⟨hOwn, hReal⟩
        | _ => exact ⟨hWidth, (by simp)⟩

theorem emits_load
    (hSound : m.Sound)
    (hType : m.types[l.index]? = some t)
    (hRun : Yields (load l) m u m') :
    Emits m
      [.load (.ofTy t) (Ty.slotOf m.types l.index)] [] m' := by
  rcases exists_local hSound hType with
    ⟨v, hLocal, rfl, hSlot, hRange, hSmall⟩
  unfold load at hRun
  simp only [yields_bind, yields_get] at hRun
  rcases hRun with ⟨_, m, ⟨rfl, rfl⟩, hRun⟩
  rw [hLocal] at hRun
  simp only [onSlot_eq, yields_bind, yields_get, yields_modify,
    yields_push] at hRun
  rcases hRun with ⟨_, m, ⟨rfl, rfl⟩, _, _, rfl, rfl⟩
  rw [← hSlot]
  refine Emits.act (.refl _) (Instruction.offset_onSlot _ _ _ _)
    (legal_onSlot_load _ _ _) (action?_onSlot_load _ _ _ hSmall)
    ?_ ((MethodDraft.SameCode.refl _).push _) ?_
  · intro slot width hPlace
    cases hPlace
    exact hRange
  · rintro frame s s' hTracks hCheck hHigh -
    simp only [Action.check] at hCheck
    split at hCheck
    case isTrue hFamily =>
        cases hCheck
        rcases heldIn_spec (s := s) hTracks hLocal with
          ⟨hWidth, hKnown⟩
        refine hTracks.push ?_ hKnown hHigh
        rw [VType.slots_of_family? hFamily]
        exact hWidth
    case isFalse => cases hCheck

/-
  Two locals with a slot in common are one: otherwise the later
  one starts behind the end of the earlier.
-/
theorem index_unique
    (hSound : m.Sound)
    {i j : Nat}
    {v w : LocalVar}
    (hv : m.locals[i]? = some v)
    (hw : m.locals[j]? = some w)
    (hSlot : v.slot = w.slot) :
    i = j := by
  have hLess : ∀ {i j : Nat} {v w : LocalVar},
      m.locals[i]? = some v → m.locals[j]? = some w →
        i < j → v.slot < w.slot := by
    intro i j v w hv hw hLt
    have hType : m.types[i]? = some v.ty := by
      rw [MethodDraft.Sound.types_getElem?, hv]
      rfl
    have hEnd := Ty.slotOf_add_width_le hType hLt
    have hPos := v.ty.width_pos
    rw [hSound.placed i v hv, hSound.placed j w hw]
    omega
  rcases Nat.lt_trichotomy i j with hLt | hSame | hGt
  · have hDiffer := hLess hv hw hLt
    omega
  · exact hSame
  · have hDiffer := hLess hw hv hGt
    omega

/-
  A local that a value is stored in is as wide as before.  Each
  local of the new draft is one of the old in its place.
-/
theorem tracks_stored
    {v : LocalVar}
    {vs : List VType}
    (hSound : m.Sound)
    (hLocal : m.locals[l.index]? = some v)
    (hTracks : m.Tracks vs) :
    (m.stored l v).Tracks vs := by
  have hTypes := types_stored hLocal
  refine ⟨hTracks.stack, hTracks.known, hTracks.depth,
    hTracks.high, ?_, ?_⟩
  · have hIn : v.ty ∈ m.types :=
      List.mem_map.mpr ⟨v, by
        rw [Array.mem_toList_iff]
        exact Array.mem_of_getElem? hLocal, rfl⟩
    have hOwn : (VType.ofTy v.ty).slots = v.ty.width :=
      VType.slots_of_family?
        (VType.family?_ofTy (hTracks.values v.ty hIn))
    have hOld : ∀ (i : Nat) (w : LocalVar),
        (m.stored l v).locals[i]? = some w →
          ∃ w' : LocalVar, m.locals[i]? = some w' ∧
            w'.slot = w.slot ∧ w'.ty = w.ty := by
      intro i w hw
      unfold MethodDraft.stored at hw
      rw [Array.getElem?_setIfInBounds] at hw
      split at hw
      case isTrue hSame =>
          split at hw
          case isTrue =>
              cases hw
              exact ⟨v, hSame ▸ hLocal, rfl, rfl⟩
          case isFalse => cases hw
      case isFalse => exact ⟨w, hw, rfl, rfl⟩
    intro i w x hw hx
    rcases hOld i w hw with ⟨w', hw', hSlot, hTy⟩
    rw [← hTy]
    rw [← hSlot] at hx
    unfold MethodDraft.stored at hx
    rw [Array.getElem?_setIfInBounds] at hx
    split at hx
    case isTrue hSame =>
        split at hx
        case isTrue =>
            cases hx
            have hIndex := index_unique hSound hLocal hw' hSame
            rw [hIndex, hw'] at hLocal
            cases hLocal
            exact Or.inr hOwn
        case isFalse => cases hx
    case isFalse => exact hTracks.held i w' x hw' hx
  · rw [hTypes]
    exact hTracks.values

theorem emits_store
    (hSound : m.Sound)
    (hType : m.types[l.index]? = some t)
    (hRun : Yields (store l) m u m') :
    Emits m
      [.store (.ofTy t) (Ty.slotOf m.types l.index)] [] m' := by
  rcases exists_local hSound hType with
    ⟨v, hLocal, rfl, hSlot, hRange, hSmall⟩
  unfold Yields at hRun
  rw [outcomeOf_store hLocal] at hRun
  simp only [Prod.mk.injEq] at hRun
  rcases hRun with ⟨-, rfl⟩
  have hPop := (MethodDraft.SameCode.refl m).pop
  have hHere : m.pop.2.locals[l.index]? = some v := by
    rw [hPop.locals, hLocal]
  rw [← hSlot]
  refine Emits.one ?_ hPop.header hPop.labels ?_ ?_ ?_ ?_ ?_
    (legal_onSlot_store m.pop.2.offset _ _)
    (action?_onSlot_store _ _ _ hSmall) ?_ ?_ ?_
  · change m.pool.Grown m.pop.2.pool
    rw [hPop.pool]
    exact .refl _
  · exact (types_stored (m := m.pop.2.append _) hHere).trans
      hPop.types
  · intro i w hw hStart
    rw [← hPop.locals] at hw
    unfold MethodDraft.stored
    rw [Array.getElem?_setIfInBounds]
    split
    case isTrue hSame =>
        rcases Array.getElem?_eq_some_iff.mp hw with ⟨hLt, _⟩
        refine ⟨_, if_pos (hSame ▸ hLt), ?_⟩
        cases v.start <;> rfl
    case isFalse => exact ⟨w, hw, hStart⟩
  · exact congrArg (Array.push · _) hPop.lines
  · rw [Instruction.offset_onSlot, hPop.offset]
  · exact congrArg (· + _) hPop.offset
  · intro slot width hPlace
    cases hPlace
    exact hRange
  · exact hPop.higher
  · rintro frame s s' hTracks hCheck - -
    simp only [Action.check, TypeState.popThen_eq_some] at hCheck
    rcases hCheck with ⟨x, r, rfl, hIf⟩
    split at hIf
    case isTrue =>
        cases hIf
        have hPopped := hTracks.pop.1
        refine tracks_stored ?_ hHere
          ⟨hPopped.stack, hPopped.known, hPopped.depth,
            hPopped.high, hPopped.held, hPopped.values⟩
        exact (sound_pop hSound).of_same (.refl _) rfl rfl rfl
    case isFalse => cases hIf

theorem emits_newLocal
    {name : String}
    (hSound : m.Sound)
    (hValue : t.isValue = true)
    (hRun : Yields (newLocal name t) m l m') :
    Emits m [] [t] m' ∧ l.index = m.types.length := by
  unfold Yields outcomeOf newLocal at hRun
  split at hRun
  case isTrue hRoom =>
      simp only [Prod.mk.injEq, Except.ok.injEq] at hRun
      rcases hRun with ⟨rfl, rfl⟩
      refine ⟨⟨.refl _, rfl, rfl, m.types_alloc _ _ _ _, ?_, ?_,
        (by simp), Nat.le_refl _, ?_⟩, ?_⟩
      · intro i v hv hStart
        refine ⟨v, ?_, hStart⟩
        rcases Array.getElem?_eq_some_iff.mp hv with ⟨hLt, _⟩
        simp only [MethodDraft.alloc, Array.getElem?_push]
        rw [if_neg (Nat.ne_of_lt hLt)]
        exact hv
      · exact ⟨[], by simp [MethodDraft.alloc], trivial, rfl, rfl⟩
      · rintro frame s s' hTracks rfl
        refine ⟨⟨hTracks.stack, hTracks.known, hTracks.depth,
          hTracks.high, hTracks.held.alloc hSound (Or.inl rfl),
          ?_⟩, rfl⟩
        intro u hu
        rw [m.types_alloc] at hu
        rcases List.mem_append.mp hu with hOld | hNew
        · exact hTracks.values u hOld
        · rw [List.mem_singleton.mp hNew]
          exact hValue
      · simp [MethodDraft.alloc, MethodDraft.types]
  case isFalse => simp at hRun

end Locals

end Stratagem
