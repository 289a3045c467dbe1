import Stratagem.Assembly.Branch
import Stratagem.Proofs.Assembly.Locals

/-
  The depth that a draft is declared to need.

  The depth of the stack is counted in sixteen bits, and the
  highest count is what is declared.  As long as no sum has
  left its sixteen bits, a count is never below what the stack
  takes: a constructor may make the stack narrower than it was
  counted, and nothing makes it wider.  So nothing is taken off
  a count that is not in it, and the stack at a label can be
  counted anew.

  Key definitions include:
    * `MethodDraft.Covered`
    * `MethodDraft.Gauges`

  Main declarations:
    * `MethodDraft.Gauges.push`
    * `MethodDraft.Gauges.pop`
    * `MethodDraft.Gauges.replace`
    * `MethodDraft.Gauges.jump`
    * `MethodDraft.Gauges.bind`
-/

namespace Stratagem

open Jvm

------------------------------------------------------------
-- Counts
------------------------------------------------------------

theorem le_toNat_max
    (a b : UInt16) :
    a.toNat ≤ (max a b).toNat ∧ b.toNat ≤ (max a b).toNat := by
  change a.toNat ≤ (if a ≤ b then b else a).toNat ∧
    b.toNat ≤ (if a ≤ b then b else a).toNat
  split
  case isTrue hLe => exact ⟨UInt16.le_iff_toNat_le.mp hLe, Nat.le_refl _⟩
  case isFalse hGt =>
      rw [UInt16.le_iff_toNat_le] at hGt
      exact ⟨Nat.le_refl _, by omega⟩

namespace Jvm.VType

theorem slots_pos
    (v : VType) :
    0 < v.slots := by
  cases v <;> simp [slots]

theorem slots_le
    (v : VType) :
    v.slots ≤ 2 := by
  cases v <;> simp [slots]

theorem toNat_slots
    (v : VType) :
    (UInt16.ofNat v.slots).toNat = v.slots := by
  have hSmall := v.slots_le
  rw [UInt16.toNat_ofNat']
  exact Nat.mod_eq_of_lt (by omega)

/- An object is as narrow as anything that it replaces. -/
theorem totalSlots_replace_le
    (old : VType)
    (name : String)
    (vs : List VType) :
    totalSlots (vs.map fun v =>
      if v = old then .object name else v) ≤ totalSlots vs := by
  induction vs with
  | nil => exact Nat.le_refl _
  | cons v vs ih =>
      rw [List.map_cons, totalSlots_cons, totalSlots_cons]
      refine Nat.add_le_add ?_ ih
      split
      · exact v.slots_pos
      · exact Nat.le_refl _

end Jvm.VType

namespace MethodDraft

------------------------------------------------------------
-- Covered Stacks
------------------------------------------------------------

/-
  A draft counts all that its stack takes, and declares as much
  as it counts and as any stack took that a label is known for.
-/
structure Covered
    (m : MethodDraft) : Prop where
  low : VType.totalSlots m.stack ≤ m.depth.toNat
  high : m.depth.toNat ≤ m.maxStack.toNat
  entries : EachEntry m.labels fun e =>
    VType.totalSlots e.stack ≤ m.maxStack.toNat

/-
  A draft became another.  If no sum has left its sixteen bits
  in the second, then none has in the first, and a stack that
  was covered still is.
-/
structure Gauges
    (m m' : MethodDraft) : Prop where
  kept : m'.overflow = false → m.overflow = false
  covered : m'.overflow = false → m.Covered → m'.Covered

theorem Covered.declared
    {m : MethodDraft}
    (hCovered : m.Covered) :
    VType.totalSlots m.stack ≤ m.maxStack.toNat :=
  Nat.le_trans hCovered.low hCovered.high

/- A method begins so. -/
theorem Bare.covered
    {m : MethodDraft}
    (hBare : m.Bare) :
    m.Covered := by
  refine ⟨?_, ?_, ?_⟩
  · rw [hBare.stack]
    exact Nat.zero_le _
  · rw [hBare.depth]
    exact Nat.zero_le _
  · rw [hBare.labels]
    intro l hIn
    simp at hIn

/- A sum that fits does not matter. -/
theorem overflow_addUp
    (m : MethodDraft)
    {sum : Nat}
    (hFits : sum ≤ 65535) :
    (m.addUp sum).overflow = m.overflow := by
  simp [addUp, Nat.not_lt.mpr hFits]

theorem addUp_eq_false
    {m : MethodDraft}
    {sum : Nat}
    (hKept : (m.addUp sum).overflow = false) :
    m.overflow = false ∧ sum ≤ 65535 := by
  simpa [addUp] using hKept

/- A count that fits is exact. -/
theorem toNat_depth_push
    {m : MethodDraft}
    {v : VType}
    (hFits : m.depth.toNat + v.slots ≤ 65535) :
    (m.push v).depth.toNat = m.depth.toNat + v.slots := by
  change (m.depth + UInt16.ofNat v.slots).toNat = _
  rw [UInt16.toNat_add, v.toNat_slots]
  exact Nat.mod_eq_of_lt (by omega)

theorem toNat_depth_sub
    {m : MethodDraft}
    {v : VType}
    (hCounted : v.slots ≤ m.depth.toNat) :
    (m.depth - UInt16.ofNat v.slots).toNat =
      m.depth.toNat - v.slots := by
  rw [UInt16.toNat_sub_of_le, v.toNat_slots]
  rw [UInt16.le_iff_toNat_le, v.toNat_slots]
  exact hCounted

/- What takes no more than is declared can be counted. -/
theorem toNat_slotsOf
    {declared : UInt16}
    {stack : List VType}
    (hLow : VType.totalSlots stack ≤ declared.toNat) :
    (slotsOf stack).toNat = VType.totalSlots stack := by
  rw [slotsOf, UInt16.toNat_ofNat']
  exact Nat.mod_eq_of_lt (Nat.lt_of_le_of_lt hLow declared.toNat_lt)

namespace Gauges

variable {m m₁ m' : MethodDraft}

theorem refl
    (m : MethodDraft) :
    m.Gauges m :=
  ⟨id, fun _ => id⟩

theorem trans
    (hFirst : m.Gauges m₁)
    (hNext : m₁.Gauges m') :
    m.Gauges m' :=
  ⟨hFirst.kept ∘ hNext.kept, fun hKept hCovered =>
    hNext.covered hKept (hFirst.covered (hNext.kept hKept) hCovered)⟩

/- Other parts of a draft do not matter. -/
theorem of_same
    (hStack : m'.stack = m.stack)
    (hDepth : m'.depth = m.depth)
    (hMax : m'.maxStack = m.maxStack)
    (hLabels : m'.labels = m.labels)
    (hKept : m'.overflow = false → m.overflow = false) :
    m.Gauges m' := by
  refine ⟨hKept, fun _ hCovered => ⟨?_, ?_, ?_⟩⟩
  · rw [hStack, hDepth]
    exact hCovered.low
  · rw [hDepth, hMax]
    exact hCovered.high
  · rw [hLabels, hMax]
    exact hCovered.entries

theorem addUp
    (m : MethodDraft)
    (sum : Nat) :
    m.Gauges (m.addUp sum) :=
  .of_same rfl rfl rfl rfl fun hKept => (addUp_eq_false hKept).1

theorem push
    (m : MethodDraft)
    (v : VType) :
    m.Gauges (m.push v) := by
  refine ⟨fun hKept => (addUp_eq_false hKept).1,
    fun hKept hCovered => ?_⟩
  have hFits : m.depth.toNat + v.slots ≤ 65535 :=
    (addUp_eq_false hKept).2
  have hLow := hCovered.low
  refine ⟨?_, (le_toNat_max _ _).2, fun l hl e he => ?_⟩
  · rw [toNat_depth_push hFits]
    change v.slots + VType.totalSlots m.stack ≤ _
    omega
  · exact Nat.le_trans (hCovered.entries l hl e he)
      (le_toNat_max _ _).1

theorem pop
    (m : MethodDraft) :
    m.Gauges m.pop.2 := by
  unfold MethodDraft.pop
  cases hStack : m.stack with
  | nil => exact .of_same rfl rfl rfl rfl id
  | cons v rest =>
      refine ⟨id, fun _ hCovered => ?_⟩
      have hLow := hCovered.low
      have hHigh := hCovered.high
      rw [hStack, VType.totalSlots_cons] at hLow
      have hDepth := toNat_depth_sub (m := m) (v := v) (by omega)
      refine ⟨?_, ?_, hCovered.entries⟩
      · rw [hDepth]
        dsimp only
        omega
      · rw [hDepth]
        dsimp only
        omega

/- Nothing is on the stack behind the last line. -/
theorem terminate
    (m : MethodDraft) :
    m.Gauges m.terminate :=
  ⟨id, fun _ hCovered =>
    ⟨Nat.le_refl _, Nat.zero_le _, hCovered.entries⟩⟩

/- What becomes an object takes no more slots than before. -/
theorem replace
    (m : MethodDraft)
    (old : VType)
    (name : String) :
    m.Gauges (m.replace old (.object name)) :=
  ⟨id, fun _ hCovered =>
    ⟨Nat.le_trans (VType.totalSlots_replace_le old name m.stack)
      hCovered.low, hCovered.high, hCovered.entries⟩⟩

/- Nothing is known of a new label. -/
theorem newLabel
    (m : MethodDraft) :
    m.Gauges { m with labels := m.labels.push {} } :=
  ⟨id, fun _ hCovered => ⟨hCovered.low, hCovered.high,
    hCovered.entries.push⟩⟩

/- A label is known for the stack here, if for none before. -/
theorem jump
    (m : MethodDraft)
    (opcode : Opcode)
    (l : Label) :
    m.Gauges (m.jump opcode l) :=
  ⟨id, fun _ hCovered => ⟨hCovered.low, hCovered.high,
    hCovered.entries.set (fun _ he =>
      hCovered.entries.first hCovered.declared l.index he) l.index⟩⟩

/- What is resumed took no more than is declared. -/
theorem resume
    (m : MethodDraft)
    {s : Snapshot}
    (hLow : m.Covered →
      VType.totalSlots s.stack ≤ m.maxStack.toNat) :
    m.Gauges (m.resume s) := by
  refine ⟨id, fun _ hCovered => ?_⟩
  have hEntry := hLow hCovered
  have hDepth := toNat_slotsOf hEntry
  exact ⟨Nat.le_of_eq hDepth.symm, hDepth ▸ hEntry, hCovered.entries⟩

theorem bind
    (m : MethodDraft)
    (l : Label) :
    m.Gauges (m.bind l) := by
  have hEntry : m.Covered → VType.totalSlots
      ((m.labels.getD l.index {}).entry.getD m.snapshot).stack ≤
        m.maxStack.toNat :=
    fun hCovered => hCovered.entries.known hCovered.declared l.index
  unfold MethodDraft.bind
  dsimp only
  split
  · exact .of_same rfl rfl rfl rfl id
  · refine (resume m hEntry).trans ⟨id, fun _ hCovered => ?_⟩
    refine ⟨hCovered.low, hCovered.high,
      hCovered.entries.set (fun e he => ?_) l.index⟩
    cases he
    exact hCovered.declared

end Gauges

end MethodDraft

end Stratagem
