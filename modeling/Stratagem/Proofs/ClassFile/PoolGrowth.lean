import Std.Data.TreeMap.Lemmas
import Stratagem.ClassFile.Pool
import Stratagem.Proofs.Steps

/-
  How constant pools grow.

  A pool that was built by adding constants holds each one at
  the index it was given, and it goes on doing so when more
  are added.

  Key definitions include:
    * `ConstantPool.Within`
    * `ConstantPool.Indexed`
    * `ConstantPool.Sound`
    * `ConstantPool.Grown`
    * `Pooling.Grows`

  Main declarations:
    * `ConstantPool.Sound.append`
    * `Pooling.add_get?`
    * `Pooling.text_textAt?`
    * `Pooling.classRef_classAt?`
    * `Pooling.member_memberAt?`
-/

namespace Stratagem

namespace ConstantPool

------------------------------------------------------------
-- Entries That Stay
------------------------------------------------------------

/- Every entry of a pool is in another at the same index. -/
def Within
    (p q : ConstantPool) : Prop :=
  ∀ i c, p.get? i = some c → q.get? i = some c

namespace Within

variable {p q : ConstantPool}

theorem refl
    (p : ConstantPool) :
    p.Within p :=
  fun _ _ hGet => hGet

theorem trans
    {r : ConstantPool}
    (hFirst : p.Within q)
    (hNext : q.Within r) :
    p.Within r :=
  fun i c hGet => hNext i c (hFirst i c hGet)

theorem textAt?
    (hWithin : p.Within q)
    {i : UInt16}
    {s : String}
    (hText : p.textAt? i = some s) :
    q.textAt? i = some s := by
  unfold ConstantPool.textAt? at hText ⊢
  split at hText
  case h_1 t hGet =>
      rw [hWithin i _ hGet]
      exact hText
  case h_2 => cases hText

theorem classAt?
    (hWithin : p.Within q)
    {i : UInt16}
    {name : String}
    (hClass : p.classAt? i = some name) :
    q.classAt? i = some name := by
  unfold ConstantPool.classAt? at hClass ⊢
  split at hClass
  case h_1 n hGet =>
      rw [hWithin i _ hGet]
      exact hWithin.textAt? hClass
  case h_2 => cases hClass

theorem nameAndTypeAt?
    (hWithin : p.Within q)
    {i : UInt16}
    {pair : String × String}
    (hPair : p.nameAndTypeAt? i = some pair) :
    q.nameAndTypeAt? i = some pair := by
  unfold ConstantPool.nameAndTypeAt? at hPair ⊢
  split at hPair
  case h_1 n d hGet =>
      rw [hWithin i _ hGet]
      simp only [Option.bind_eq_bind, Option.bind_eq_some_iff]
        at hPair ⊢
      rcases hPair with ⟨name, hName, descriptor, hDesc, hEq⟩
      exact ⟨name, hWithin.textAt? hName, descriptor,
        hWithin.textAt? hDesc, hEq⟩
  case h_2 => cases hPair

theorem memberAt?
    (hWithin : p.Within q)
    {i : UInt16}
    {m : MemberRef}
    (hMember : p.memberAt? i = some m) :
    q.memberAt? i = some m := by
  unfold ConstantPool.memberAt? at hMember ⊢
  split at hMember
  case h_1 kind o n hGet =>
      rw [hWithin i _ hGet]
      simp only [Option.bind_eq_bind, Option.bind_eq_some_iff]
        at hMember ⊢
      rcases hMember with ⟨owner, hOwner, pair, hPair, hEq⟩
      exact ⟨owner, hWithin.classAt? hOwner, pair,
        hWithin.nameAndTypeAt? hPair, hEq⟩
  case h_2 => cases hMember

end Within

end ConstantPool

------------------------------------------------------------
-- Sound Pools
------------------------------------------------------------

/- The constant that is found by a key. -/
def Constant.ofKey : List Nat → Constant
  | [3, n] => .integer (UInt32.ofNat n).toInt32
  | [4, n] => .float ⟨UInt32.ofNat n⟩
  | [5, n] => .long (UInt64.ofNat n).toInt64
  | [6, n] => .double ⟨UInt64.ofNat n⟩
  | [7, n] => .classRef (UInt16.ofNat n)
  | [8, n] => .string (UInt16.ofNat n)
  | [9, m, n] => .member .field (UInt16.ofNat m) (UInt16.ofNat n)
  | [10, m, n] => .member .method (UInt16.ofNat m) (UInt16.ofNat n)
  | [11, m, n] =>
      .member .interfaceMethod (UInt16.ofNat m) (UInt16.ofNat n)
  | [12, m, n] => .nameAndType (UInt16.ofNat m) (UInt16.ofNat n)
  | key => .text (.ofList (key.tail.map Char.ofNat))

theorem Constant.ofKey_key
    (c : Constant) :
    ofKey c.key = c := by
  cases c with
  | text s =>
      have hChars : (s.toList.map Char.toNat).map Char.ofNat =
          s.toList := by
        rw [List.map_map]
        conv => rhs; rw [← List.map_id s.toList]
        exact List.map_congr_left fun x _ => Char.ofNat_toNat x
      simp [key, tag, parts, ofKey, hChars]
  | member kind owner pair =>
      cases kind <;> simp [key, tag, parts, ofKey]
  | _ => simp [key, tag, parts, ofKey]

/- Different constants are found by different keys. -/
theorem Constant.key_injective
    {c d : Constant}
    (hKey : c.key = d.key) :
    c = d := by
  rw [← c.ofKey_key, hKey, d.ofKey_key]

/- A constant whose text, if it is one, can be written. -/
def Constant.IsShort : Constant → Prop
  | .text s => (ModifiedUtf8.encode s).length ≤ 65535
  | _ => True

namespace ConstantPool

/-
  A pool as adding constants makes it: it grew one constant
  at a time, its indices have sixteen bits, and its index
  leads to the constants.
-/
structure Sound
    (p : ConstantPool) : Prop where
  grown : p = p.constants.foldl append {}
  small : p.entries.size ≤ 65535
  short : ∀ c ∈ p.constants, c.IsShort
  found : ∀ c i, p.index[c]? = some i → p.get? i = some c

/-
  A pool whose indices have sixteen bits, and whose index leads
  to the constants.  Its texts may be too long to be written.
-/
structure Indexed
    (p : ConstantPool) : Prop where
  small : p.entries.size ≤ 65535
  found : ∀ c i, p.index[c]? = some i → p.get? i = some c

theorem Sound.indexed
    {p : ConstantPool}
    (hSound : p.Sound) :
    p.Indexed :=
  ⟨hSound.small, hSound.found⟩

theorem sound_empty :
    Sound {} where
  grown := rfl
  small := by simp
  short := by simp [constants]
  found := by simp

@[simp] theorem constants_append
    (p : ConstantPool)
    (c : Constant) :
    (p.append c).constants = p.constants ++ [c] := by
  unfold append constants
  split <;> simp

theorem size_append
    (p : ConstantPool)
    (c : Constant) :
    (p.append c).entries.size = p.entries.size + c.width := by
  unfold append Constant.width
  split <;> simp_all

theorem within_append
    (p : ConstantPool)
    (c : Constant) :
    p.Within (p.append c) := by
  intro i d hGet
  have hIn : i.toNat < p.entries.size := by
    rcases Nat.lt_or_ge i.toNat p.entries.size with hLt | hGe
    · exact hLt
    · simp [get?, Array.getElem?_eq_none hGe] at hGet
  rw [← hGet]
  unfold get? append
  split <;> simp [Array.getElem?_push, hIn, Nat.ne_of_lt hIn,
    Nat.ne_of_lt (Nat.lt_succ_of_lt hIn)]

/- A new constant is found at the index behind the last one. -/
theorem get?_append
    (p : ConstantPool)
    (c : Constant)
    (hSmall : p.entries.size ≤ 65535) :
    (p.append c).get? (UInt16.ofNat p.entries.size) = some c := by
  have hIndex :
      (UInt16.ofNat p.entries.size).toNat = p.entries.size := by
    simpa using Nat.mod_eq_of_lt (Nat.lt_succ_of_le hSmall)
  unfold get? append
  rw [hIndex]
  split
  · rw [Array.getElem?_push_lt (by simp)]
    simp
  · simp

theorem Indexed.append
    {p : ConstantPool}
    (hIndexed : p.Indexed)
    {c : Constant}
    (hRoom : p.entries.size + c.width ≤ 65535) :
    (p.append c).Indexed where
  small := by
    rw [size_append]
    exact hRoom
  found := by
    intro d i hIndex
    have hInsert :
        (p.index.insertIfNew c
          (UInt16.ofNat p.entries.size))[d]? = some i := hIndex
    rw [Std.TreeMap.getElem?_insertIfNew] at hInsert
    split at hInsert
    case isTrue hNew =>
        rcases hNew with ⟨hSame, _⟩
        have hKey : c.key = d.key :=
          Std.LawfulEqCmp.eq_of_compare hSame
        rw [← Constant.key_injective hKey,
          ← Option.some.inj hInsert]
        exact p.get?_append c hIndexed.small
    case isFalse hOld =>
        exact p.within_append c i d (hIndexed.found d i hInsert)

theorem Sound.append
    {p : ConstantPool}
    (hSound : p.Sound)
    {c : Constant}
    (hRoom : p.entries.size + c.width ≤ 65535)
    (hShort : c.IsShort) :
    (p.append c).Sound where
  grown := by
    rw [constants_append, List.foldl_append, ← hSound.grown]
    rfl
  small := (hSound.indexed.append hRoom).small
  short := by
    intro d hd
    rw [constants_append, List.mem_append,
      List.mem_singleton] at hd
    rcases hd with hOld | rfl
    · exact hSound.short d hOld
    · exact hShort
  found := (hSound.indexed.append hRoom).found

/- A pool became another by adding to it. -/
structure Grown
    (p q : ConstantPool) : Prop where
  sound : p.Sound → q.Sound
  indexed : p.Indexed → q.Indexed
  within : p.Within q

namespace Grown

variable {p q r : ConstantPool}

theorem refl
    (p : ConstantPool) :
    p.Grown p :=
  ⟨id, id, .refl p⟩

theorem trans
    (hFirst : p.Grown q)
    (hNext : q.Grown r) :
    p.Grown r :=
  ⟨hNext.sound ∘ hFirst.sound, hNext.indexed ∘ hFirst.indexed,
    hFirst.within.trans hNext.within⟩

end Grown

end ConstantPool

------------------------------------------------------------
-- Steps on Pools
------------------------------------------------------------

namespace Pooling

open ConstantPool

variable {α β : Type}

/- A step that only adds to the pool, also when it fails. -/
abbrev Grows
    (x : Pooling α) : Prop :=
  Keeps Grown x

theorem grows_pure
    (a : α) :
    Grows (pure a) :=
  Keeps.pure Grown.refl a

theorem grows_throw
    (e : ClassFileError) :
    Grows (throw e : Pooling α) :=
  Keeps.throw Grown.refl e

theorem Grows.bind
    {x : Pooling α}
    {f : α → Pooling β}
    (hFirst : Grows x)
    (hNext : ∀ a, Grows (f a)) :
    Grows (x >>= f) :=
  Keeps.bind Grown.trans hFirst hNext

theorem grows_mapM
    {f : α → Pooling β}
    (xs : List α)
    (hEach : ∀ x, Grows (f x)) :
    Grows (xs.mapM f) := by
  induction xs with
  | nil => exact grows_pure []
  | cons x xs ih =>
      rw [List.mapM_cons]
      exact (hEach x).bind fun y =>
        ih.bind fun ys => grows_pure (y :: ys)

/- Adding a constant finds it, appends it or fails. -/
theorem outcomeOf_add
    (c : Constant)
    (p : ConstantPool) :
    outcomeOf (add c) p =
      match p.index[c]? with
      | some i => (.ok i, p)
      | none =>
          if 65535 < p.entries.size + c.width then
            (.error .constantPoolOverflow, p)
          else
            (.ok (UInt16.ofNat p.entries.size), p.append c) := by
  have hGet : outcomeOf (get : Pooling ConstantPool) p =
      (.ok p, p) := rfl
  unfold add
  rw [outcomeOf_bind, hGet]
  dsimp only
  cases p.index[c]? with
  | some i => rfl
  | none =>
      dsimp only
      by_cases hFull : 65535 < p.entries.size + c.width
      · rw [if_pos hFull, if_pos hFull]
        rfl
      · rw [if_neg hFull, if_neg hFull]
        rfl

/- Any constant may be added, also a text that is too long. -/
theorem indexed_add
    (c : Constant)
    {p : ConstantPool}
    (hIndexed : p.Indexed) :
    (outcomeOf (add c) p).2.Indexed := by
  rw [outcomeOf_add]
  split
  case h_1 => exact hIndexed
  case h_2 =>
      split
      case isTrue => exact hIndexed
      case isFalse hRoom =>
          exact hIndexed.append (Nat.not_lt.mp hRoom)

theorem within_add
    (c : Constant)
    (p : ConstantPool) :
    p.Within (outcomeOf (add c) p).2 := by
  rw [outcomeOf_add]
  split
  case h_1 => exact .refl p
  case h_2 =>
      split
      case isTrue => exact .refl p
      case isFalse => exact p.within_append c

theorem grows_add
    {c : Constant}
    (hShort : c.IsShort) :
    Grows (add c) := by
  intro p
  refine ⟨fun hSound => ?_, indexed_add c, within_add c p⟩
  rw [outcomeOf_add]
  split
  case h_1 => exact hSound
  case h_2 =>
      split
      case isTrue => exact hSound
      case isFalse hRoom =>
          exact hSound.append (Nat.not_lt.mp hRoom) hShort

/- The index of a constant leads to it. -/
theorem add_get?
    {c : Constant}
    {p q : ConstantPool}
    {i : UInt16}
    (hIndexed : p.Indexed)
    (hYields : Yields (add c) p i q) :
    q.get? i = some c := by
  unfold Yields at hYields
  rw [outcomeOf_add] at hYields
  split at hYields
  case h_1 j hIndex =>
      simp only [Prod.mk.injEq, Except.ok.injEq] at hYields
      rcases hYields with ⟨rfl, rfl⟩
      exact hIndexed.found c j hIndex
  case h_2 =>
      split at hYields
      case isTrue => simp at hYields
      case isFalse =>
          simp only [Prod.mk.injEq, Except.ok.injEq] at hYields
          rcases hYields with ⟨rfl, rfl⟩
          exact p.get?_append c hIndexed.small

theorem yields_text
    {s : String}
    {p q : ConstantPool}
    {i : UInt16} :
    Yields (text s) p i q ↔
      (ModifiedUtf8.encode s).length ≤ 65535 ∧
        Yields (add (.text s)) p i q := by
  unfold text
  by_cases hLong : 65535 < (ModifiedUtf8.encode s).length
  · simp [hLong, Nat.not_le.mpr hLong]
  · simp [hLong, Nat.not_lt.mp hLong]

theorem grows_text
    (s : String) :
    Grows (text s) := by
  unfold text
  dsimp only
  split
  case isTrue => exact grows_throw _
  case isFalse hShort => exact grows_add (Nat.not_lt.mp hShort)

theorem grows_classRef
    (name : String) :
    Grows (classRef name) :=
  (grows_text name).bind fun _ => grows_add trivial

theorem grows_string
    (s : String) :
    Grows (string s) :=
  (grows_text s).bind fun _ => grows_add trivial

theorem grows_nameAndType
    (name descriptor : String) :
    Grows (nameAndType name descriptor) :=
  (grows_text name).bind fun _ =>
    (grows_text descriptor).bind fun _ => grows_add trivial

theorem grows_member
    (kind : MemberKind)
    (owner name descriptor : String) :
    Grows (member kind owner name descriptor) :=
  (grows_classRef owner).bind fun _ =>
    (grows_nameAndType name descriptor).bind fun _ =>
      grows_add trivial

/- The index of a text leads to it. -/
theorem text_textAt?
    {s : String}
    {p q : ConstantPool}
    {i : UInt16}
    (hIndexed : p.Indexed)
    (hYields : Yields (text s) p i q) :
    q.textAt? i = some s := by
  have hGet := add_get? hIndexed (yields_text.mp hYields).2
  simp [textAt?, hGet]

/- The index of a class leads to a class with its name. -/
theorem classRef_classAt?
    {name : String}
    {p q : ConstantPool}
    {i : UInt16}
    (hIndexed : p.Indexed)
    (hYields : Yields (classRef name) p i q) :
    q.classAt? i = some name := by
  rcases yields_bind.mp hYields with ⟨n, p₁, hName, hClass⟩
  have hText := (grows_text name).of_yields hName
  have hGrown :=
    (grows_add (c := .classRef n) trivial).of_yields hClass
  have hGet := add_get? (hText.indexed hIndexed) hClass
  have hAt := hGrown.within.textAt? (text_textAt? hIndexed hName)
  simp [classAt?, hGet, hAt]

theorem nameAndType_nameAndTypeAt?
    {name descriptor : String}
    {p q : ConstantPool}
    {i : UInt16}
    (hIndexed : p.Indexed)
    (hYields : Yields (nameAndType name descriptor) p i q) :
    q.nameAndTypeAt? i = some (name, descriptor) := by
  rcases yields_bind.mp hYields with ⟨n, p₁, hName, hRest⟩
  rcases yields_bind.mp hRest with ⟨d, p₂, hDesc, hPair⟩
  have hFirst := (grows_text name).of_yields hName
  have hSecond := (grows_text descriptor).of_yields hDesc
  have hThird :=
    (grows_add (c := .nameAndType n d) trivial).of_yields hPair
  have hIndexed₁ := hFirst.indexed hIndexed
  have hGet := add_get? (hSecond.indexed hIndexed₁) hPair
  have hNameAt := (hSecond.trans hThird).within.textAt?
    (text_textAt? hIndexed hName)
  have hDescAt := hThird.within.textAt?
    (text_textAt? hIndexed₁ hDesc)
  simp [nameAndTypeAt?, hGet, hNameAt, hDescAt]

/- The index of a member leads to it by all its names. -/
theorem member_memberAt?
    {kind : MemberKind}
    {owner name descriptor : String}
    {p q : ConstantPool}
    {i : UInt16}
    (hIndexed : p.Indexed)
    (hYields : Yields (member kind owner name descriptor) p i q) :
    q.memberAt? i = some { kind, owner, name, descriptor } := by
  rcases yields_bind.mp hYields with ⟨o, p₁, hOwner, hRest⟩
  rcases yields_bind.mp hRest with ⟨n, p₂, hPair, hMember⟩
  have hFirst := (grows_classRef owner).of_yields hOwner
  have hSecond := (grows_nameAndType name descriptor).of_yields hPair
  have hThird :=
    (grows_add (c := .member kind o n) trivial).of_yields hMember
  have hIndexed₁ := hFirst.indexed hIndexed
  have hGet := add_get? (hSecond.indexed hIndexed₁) hMember
  have hOwnerAt := (hSecond.trans hThird).within.classAt?
    (classRef_classAt? hIndexed hOwner)
  have hPairAt := hThird.within.nameAndTypeAt?
    (nameAndType_nameAndTypeAt? hIndexed₁ hPair)
  simp [memberAt?, hGet, hOwnerAt, hPairAt]

end Pooling

end Stratagem
