import Stratagem.Proofs.ClassFile.Lossless

/-
  What holds of a constant pool, however it was filled.

  A pool is filled entry by entry, and an entry may bring up to
  five others with it.  Whether or not there is room for all of
  them, the pool that is left has no constant twice, finds each
  one by its index, and refers to constants of the right sort
  further down only.  Nothing that is in a pool is changed or
  moved, so an index that was given out keeps its meaning.

  Key definitions include:
    * `Constant.references`
    * `Constant.Links`
    * `ConstantPool.Consistent`
    * `ConstantPool.Resolves`
    * `Pooling.Maintains`

  Main declarations:
    * `ConstantPool.Consistent.append`
    * `Pooling.maintains_add`
    * `Entry.maintains`
    * `ConstantPool.ofEntries_consistent`
-/

namespace Stratagem

------------------------------------------------------------
-- References
------------------------------------------------------------

namespace Constant

/- The indices in a constant. -/
def references : Constant → List UInt16
  | .classRef name => [name]
  | .string value => [value]
  | .member _ owner pair => [owner, pair]
  | .nameAndType name descriptor => [name, descriptor]
  | _ => []

/- The indices in a constant lead to what they should. -/
def Links
    (p : ConstantPool) : Constant → Prop
  | .classRef name => ∃ s, p.get? name = some (.text s)
  | .string value => ∃ s, p.get? value = some (.text s)
  | .member _ owner pair =>
      (∃ n, p.get? owner = some (.classRef n)) ∧
        ∃ n d, p.get? pair = some (.nameAndType n d)
  | .nameAndType name descriptor =>
      (∃ s, p.get? name = some (.text s)) ∧
        ∃ s, p.get? descriptor = some (.text s)
  | _ => True

variable {p q : ConstantPool} {c : Constant}

theorem Links.within
    (hLinks : c.Links p)
    (hWithin : p.Within q) :
    c.Links q := by
  have hStays : ∀ {i d}, p.get? i = some d → q.get? i = some d :=
    fun hGet => hWithin _ _ hGet
  cases c with
  | classRef name => exact hLinks.imp fun _ => hStays
  | string value => exact hLinks.imp fun _ => hStays
  | member kind owner pair =>
      exact ⟨hLinks.1.imp fun _ => hStays,
        hLinks.2.imp fun _ => Exists.imp fun _ => hStays⟩
  | nameAndType name descriptor =>
      exact ⟨hLinks.1.imp fun _ => hStays,
        hLinks.2.imp fun _ => hStays⟩
  | _ => trivial

/- An index that leads somewhere is an index of the pool. -/
theorem Links.reference_lt
    {r : UInt16}
    (hLinks : c.Links p)
    (hIn : r ∈ c.references) :
    r.toNat < p.entries.size := by
  have hInside : ∀ {i d}, p.get? i = some d →
      i.toNat < p.entries.size := by
    intro i d hGet
    by_contra hOutside
    simp [ConstantPool.get?,
      Array.getElem?_eq_none (Nat.not_lt.mp hOutside)] at hGet
  cases c with
  | classRef name =>
      rcases hLinks with ⟨s, hText⟩
      cases List.mem_singleton.mp hIn
      exact hInside hText
  | string value =>
      rcases hLinks with ⟨s, hText⟩
      cases List.mem_singleton.mp hIn
      exact hInside hText
  | member kind owner pair =>
      rcases hLinks with ⟨⟨n, hOwner⟩, m, d, hPair⟩
      simp only [references, List.mem_cons, List.not_mem_nil,
        or_false] at hIn
      rcases hIn with rfl | rfl
      · exact hInside hOwner
      · exact hInside hPair
  | nameAndType name descriptor =>
      rcases hLinks with ⟨⟨s, hName⟩, t, hDescriptor⟩
      simp only [references, List.mem_cons, List.not_mem_nil,
        or_false] at hIn
      rcases hIn with rfl | rfl
      · exact hInside hName
      · exact hInside hDescriptor
  | _ => cases hIn

end Constant

------------------------------------------------------------
-- Consistent Pools
------------------------------------------------------------

namespace ConstantPool

/-
  The first index and those behind wide constants are empty and
  no others, no constant is there twice, each is found by its
  index, and what it refers to stands in front of it.
-/
structure Consistent
    (p : ConstantPool) : Prop where
  few : p.entries.size ≤ 65535
  first : p.entries[0]? = some none
  gaps : ∀ k, p.entries[k + 1]? = some none ↔
    ∃ c, p.entries[k]? = some (some c) ∧ c.isWide = true
  distinct : p.constants.Nodup
  index : ∀ c i, p.index[c]? = some i ↔ p.get? i = some c
  references : ∀ i c, p.get? i = some c →
    (∀ r ∈ c.references, r < i) ∧ c.Links p

theorem consistent_empty :
    Consistent {} where
  few := by simp
  first := by simp
  gaps := by
    intro k
    cases k <;> simp
  distinct := by simp [constants]
  index := by
    intro c i
    cases hGet : i.toNat with
    | zero => simp [get?, hGet]
    | succ k => simp [get?, hGet]
  references := by
    intro i c hGet
    cases hIndex : i.toNat with
    | zero => simp [get?, hIndex] at hGet
    | succ k => simp [get?, hIndex] at hGet

variable {p q : ConstantPool} {c d : Constant} {i : UInt16}

theorem get?_eq_some_iff :
    p.get? i = some c ↔ p.entries[i.toNat]? = some (some c) := by
  unfold get?
  exact Option.join_eq_some_iff

/- The constants of a small pool are found at its indices. -/
theorem mem_constants_iff
    (hSmall : p.entries.size ≤ 65535) :
    c ∈ p.constants ↔ ∃ i, p.get? i = some c := by
  simp only [constants, List.mem_filterMap, id_eq,
    exists_eq_right, get?_eq_some_iff, Array.mem_toList_iff,
    Array.mem_iff_getElem?]
  constructor
  · rintro ⟨k, hAt⟩
    rcases Array.getElem?_eq_some_iff.mp hAt with ⟨hLt, -⟩
    have hIndex : (UInt16.ofNat k).toNat = k := by
      simpa using Nat.mod_eq_of_lt (by omega : k < 65536)
    exact ⟨.ofNat k, by rwa [hIndex]⟩
  · rintro ⟨i, hAt⟩
    exact ⟨i.toNat, hAt⟩

/- A slot of a pool with one more constant. -/
theorem getElem?_append
    (p : ConstantPool)
    (c : Constant)
    (k : Nat) :
    (p.append c).entries[k]? =
      if k < p.entries.size then p.entries[k]?
      else if k = p.entries.size then some (some c)
      else if k = p.entries.size + 1 ∧ c.isWide = true then
        some none
      else none := by
  unfold append
  dsimp only
  split <;> simp only [Array.getElem?_push, Array.size_push] <;>
    grind

/- What is added comes behind what is there. -/
theorem prefix_append
    (p : ConstantPool)
    (c : Constant) :
    p.entries.toList <+: (p.append c).entries.toList := by
  unfold append
  dsimp only
  split <;> simp [Array.toList_push]

/- Slots that stay keep their constants. -/
theorem within_of_prefix
    (hPrefix : p.entries.toList <+: q.entries.toList) :
    p.Within q := by
  intro i c hGet
  rw [get?_eq_some_iff, ← Array.getElem?_toList] at hGet ⊢
  rcases hPrefix with ⟨more, hMore⟩
  rw [← hMore, List.getElem?_append_left
    (List.getElem?_eq_some_iff.mp hGet).1]
  exact hGet

theorem get?_append_iff
    (hSmall : p.entries.size ≤ 65535) :
    (p.append c).get? i = some d ↔
      p.get? i = some d ∨
        i = UInt16.ofNat p.entries.size ∧ d = c := by
  have hIndex : i = UInt16.ofNat p.entries.size ↔
      i.toNat = p.entries.size := by
    rw [← UInt16.toNat_inj, UInt16.toNat_ofNat',
      Nat.mod_eq_of_lt (by omega)]
  rw [get?_eq_some_iff, get?_eq_some_iff, getElem?_append, hIndex]
  split
  case isTrue hOld =>
      constructor
      · exact Or.inl
      · rintro (hHere | ⟨hLast, -⟩)
        · exact hHere
        · omega
  case isFalse hNew =>
      have hNone : p.entries[i.toNat]? = none :=
        Array.getElem?_eq_none (Nat.not_lt.mp hNew)
      rw [hNone]
      split
      case isTrue hLast => simp [hLast, eq_comm]
      case isFalse hBehind =>
          split <;> simp [hBehind]

/-
  A new constant that links to constants in the pool.  A wide
  constant that was there has its second slot there.
-/
theorem Consistent.append
    (hConsistent : p.Consistent)
    (hRoom : p.entries.size + c.width ≤ 65535)
    (hNew : p.index[c]? = none)
    (hLinks : c.Links p) :
    (p.append c).Consistent := by
  have hSmall := hConsistent.few
  have hNumber :
      (UInt16.ofNat p.entries.size).toNat = p.entries.size := by
    simpa using Nat.mod_eq_of_lt (Nat.lt_succ_of_le hSmall)
  have hWithin := p.within_append c
  have hPos : 0 < p.entries.size :=
    (Array.getElem?_eq_some_iff.mp hConsistent.first).1
  refine ⟨?_, ?_, ?_, ?_, ?_, ?_⟩
  · rw [size_append]
    exact hRoom
  · rw [getElem?_append, if_pos hPos]
    exact hConsistent.first
  · intro k
    have hBehind : ∀ d, p.entries[k]? = some (some d) →
        d.isWide = true → k + 1 < p.entries.size :=
      fun d hAt hWide => (Array.getElem?_eq_some_iff.mp
        ((hConsistent.gaps k).mpr ⟨d, hAt, hWide⟩)).1
    have hGap := hConsistent.gaps k
    simp only [getElem?_append]
    clear hWithin hLinks hNew hNumber
    grind
  · rw [constants_append, List.nodup_append]
    refine ⟨hConsistent.distinct, by simp, ?_⟩
    intro d hOld e hLast
    cases List.mem_singleton.mp hLast
    rintro rfl
    rcases (mem_constants_iff hSmall).mp hOld with ⟨i, hGet⟩
    rw [(hConsistent.index d i).mpr hGet] at hNew
    cases hNew
  · intro d i
    rw [get?_append_iff hSmall, ← hConsistent.index]
    change (p.index.insertIfNew c
      (UInt16.ofNat p.entries.size))[d]? = some i ↔ _
    rw [Std.TreeMap.getElem?_insertIfNew]
    split
    case isTrue hFresh =>
        have hSame : c = d := Constant.key_injective
          (Std.LawfulEqCmp.eq_of_compare hFresh.1)
        subst hSame
        rw [hNew]
        simp [eq_comm]
    case isFalse hOther =>
        have hDifferent : d ≠ c := by
          rintro rfl
          apply hOther
          refine ⟨Std.ReflCmp.compare_self, ?_⟩
          simpa using hNew
        simp [hDifferent]
  · intro i d hGet
    rcases (get?_append_iff hSmall).mp hGet with hOld | ⟨rfl, rfl⟩
    · rcases hConsistent.references i d hOld with ⟨hLess, hThere⟩
      exact ⟨hLess, hThere.within hWithin⟩
    · refine ⟨?_, hLinks.within hWithin⟩
      intro r hr
      rw [UInt16.lt_iff_toNat_lt, hNumber]
      exact hLinks.reference_lt hr

end ConstantPool

------------------------------------------------------------
-- Steps
------------------------------------------------------------

/- A pool became another, and both are as they should be. -/
structure ConstantPool.Extends
    (p q : ConstantPool) : Prop where
  sound : q.Sound
  consistent : q.Consistent
  stays : p.entries.toList <+: q.entries.toList

namespace Pooling

open ConstantPool

variable {α β : Type} {c : Constant}

/-
  From a pool with a property, a step leads to a larger pool,
  whether it succeeds or not.  If it does, its result and the
  pool have another property.
-/
def Maintains
    (P : ConstantPool → Prop)
    (x : Pooling α)
    (Q : α → ConstantPool → Prop) : Prop :=
  ∀ p, p.Sound → p.Consistent → P p →
    p.Extends (outcomeOf x p).2 ∧ ∀ a q, Yields x p a q → Q a q

variable {P : ConstantPool → Prop}
variable {Q : α → ConstantPool → Prop}
variable {R : β → ConstantPool → Prop}
variable {x : Pooling α} {f : α → Pooling β}

theorem Maintains.bind
    (hFirst : Maintains P x Q)
    (hNext : ∀ a, Maintains (Q a) (f a) R) :
    Maintains P (x >>= f) R := by
  intro p hSound hConsistent hStart
  rcases hFirst p hSound hConsistent hStart with
    ⟨hExtends, hResult⟩
  constructor
  · rw [outcomeOf_bind]
    rcases hRun : outcomeOf x p with ⟨result, p₁⟩
    rw [hRun] at hExtends
    cases result with
    | error e => exact hExtends
    | ok a =>
        have hMore := (hNext a p₁ hExtends.sound
          hExtends.consistent (hResult a p₁ hRun)).1
        exact { hMore with
          stays := hExtends.stays.trans hMore.stays }
  · intro b q hYields
    rcases yields_bind.mp hYields with ⟨a, p₁, hRun, hRest⟩
    rw [hRun] at hExtends
    exact (hNext a p₁ hExtends.sound hExtends.consistent
      (hResult a p₁ hRun)).2 b q hRest

/- What larger pools keep is kept. -/
theorem Maintains.frame
    {F : ConstantPool → Prop}
    (hStable : ∀ {p q : ConstantPool}, p.Within q → F p → F q)
    (hStep : Maintains (fun _ => True) x Q) :
    Maintains F x fun a q => F q ∧ Q a q := by
  intro p hSound hConsistent hStart
  rcases hStep p hSound hConsistent trivial with
    ⟨hExtends, hResult⟩
  refine ⟨hExtends, ?_⟩
  intro a q hYields
  refine ⟨hStable ?_ hStart, hResult a q hYields⟩
  have hWithin := within_of_prefix hExtends.stays
  rwa [hYields] at hWithin

/- A property of the pools before and after. -/
theorem Maintains.weaken
    {P' : ConstantPool → Prop}
    {Q' : α → ConstantPool → Prop}
    (hStep : Maintains P x Q)
    (hBefore : ∀ {p}, P' p → P p)
    (hAfter : ∀ {a q}, Q a q → Q' a q) :
    Maintains P' x Q' := by
  intro p hSound hConsistent hStart
  rcases hStep p hSound hConsistent (hBefore hStart) with
    ⟨hExtends, hResult⟩
  exact ⟨hExtends, fun a q hYields =>
    hAfter (hResult a q hYields)⟩

/-
  A constant that is there is not added again, and one that is
  new is added if there is room for it.
-/
theorem maintains_add
    (hShort : c.IsShort) :
    Maintains c.Links (add c) fun i q => q.get? i = some c := by
  intro p hSound hConsistent hLinks
  constructor
  · have hSame : p.Extends p :=
      ⟨hSound, hConsistent, List.prefix_refl _⟩
    rw [outcomeOf_add]
    split
    case h_1 => exact hSame
    case h_2 hNew =>
        split
        case isTrue => exact hSame
        case isFalse hRoom =>
            rw [Nat.not_lt] at hRoom
            exact ⟨hSound.append hRoom hShort,
              hConsistent.append hRoom hNew hLinks,
              p.prefix_append c⟩
  · intro i q hYields
    exact add_get? hSound.indexed hYields

theorem maintains_text
    (s : String) :
    Maintains (fun _ => True) (text s) fun i q =>
      q.get? i = some (.text s) := by
  intro p hSound hConsistent _
  unfold text
  dsimp only
  split
  case isTrue =>
      refine ⟨⟨hSound, hConsistent, List.prefix_refl _⟩, ?_⟩
      intro i q hYields
      exact absurd hYields yields_throw
  case isFalse hShort =>
      exact maintains_add (c := .text s) (Nat.not_lt.mp hShort) p
        hSound hConsistent trivial

theorem maintains_classRef
    (name : String) :
    Maintains (fun _ => True) (classRef name) fun i q =>
      ∃ n, q.get? i = some (.classRef n) :=
  (maintains_text name).bind fun n =>
    (maintains_add (c := .classRef n) trivial).weaken
      (fun hName => ⟨name, hName⟩) fun hGet => ⟨n, hGet⟩

theorem maintains_nameAndType
    (name descriptor : String) :
    Maintains (fun _ => True) (nameAndType name descriptor)
      fun i q => ∃ n d, q.get? i = some (.nameAndType n d) :=
  (maintains_text name).bind fun n =>
    ((maintains_text descriptor).frame
      fun hWithin => hWithin n _).bind fun d =>
        (maintains_add (c := .nameAndType n d) trivial).weaken
          (fun hTexts => ⟨⟨name, hTexts.1⟩, descriptor, hTexts.2⟩)
          fun hGet => ⟨n, d, hGet⟩

theorem maintains_member
    (kind : MemberKind)
    (owner name descriptor : String) :
    Maintains (fun _ => True) (member kind owner name descriptor)
      fun _ _ => True := by
  apply (maintains_classRef owner).bind
  intro o
  have hOwner : ∀ {p q : ConstantPool}, p.Within q →
      (∃ n, p.get? o = some (.classRef n)) →
        ∃ n, q.get? o = some (.classRef n) :=
    fun hWithin => Exists.imp fun _ => hWithin o _
  apply ((maintains_nameAndType name descriptor).frame hOwner).bind
  intro n
  exact (maintains_add (c := .member kind o n) trivial).weaken id
    fun _ => trivial

end Pooling

/- Whatever a pool is asked to hold, it stays consistent. -/
theorem Entry.maintains
    (e : Entry) :
    Pooling.Maintains (fun _ => True) e.add fun _ _ => True := by
  have hNumber : ∀ {c : Constant}, c.IsShort →
      (∀ p, c.Links p) →
      Pooling.Maintains (fun _ => True) (Pooling.add c)
        fun _ _ => True := fun hShort hLinks =>
    (Pooling.maintains_add hShort).weaken (fun _ => hLinks _)
      fun _ => trivial
  cases e with
  | text s =>
      exact (Pooling.maintains_text s).weaken id fun _ => trivial
  | classRef name =>
      exact (Pooling.maintains_classRef name).weaken id
        fun _ => trivial
  | string s =>
      exact (Pooling.maintains_text s).bind fun v =>
        (Pooling.maintains_add (c := .string v) trivial).weaken
          (fun hText => ⟨s, hText⟩) fun _ => trivial
  | nameAndType name descriptor =>
      exact (Pooling.maintains_nameAndType name descriptor).weaken
        id fun _ => trivial
  | member kind owner name descriptor =>
      exact Pooling.maintains_member kind owner name descriptor
  | _ => exact hNumber trivial fun _ => trivial

------------------------------------------------------------
-- Filled Pools
------------------------------------------------------------

namespace ConstantPool

/- An index leads to what a pool was asked to hold. -/
def Resolves
    (p : ConstantPool)
    (i : UInt16) : Entry → Prop
  | .text s => p.textAt? i = some s
  | .integer n => p.get? i = some (.integer n)
  | .float x => p.get? i = some (.float x)
  | .long n => p.get? i = some (.long n)
  | .double x => p.get? i = some (.double x)
  | .classRef name => p.classAt? i = some name
  | .string s =>
      ∃ v, p.get? i = some (.string v) ∧ p.textAt? v = some s
  | .nameAndType name descriptor =>
      p.nameAndTypeAt? i = some (name, descriptor)
  | .member kind owner name descriptor =>
      p.memberAt? i = some { kind, owner, name, descriptor }

variable {p q : ConstantPool} {i : UInt16} {e : Entry}

theorem Resolves.within
    (hResolves : p.Resolves i e)
    (hWithin : p.Within q) :
    q.Resolves i e := by
  cases e with
  | text s => exact hWithin.textAt? hResolves
  | classRef name => exact hWithin.classAt? hResolves
  | string s =>
      rcases hResolves with ⟨v, hGet, hText⟩
      exact ⟨v, hWithin i _ hGet, hWithin.textAt? hText⟩
  | nameAndType name descriptor =>
      exact hWithin.nameAndTypeAt? hResolves
  | member kind owner name descriptor =>
      exact hWithin.memberAt? hResolves
  | _ => exact hWithin i _ hResolves

/- The index that an entry is given leads to it. -/
theorem resolves_of_yields
    (hIndexed : p.Indexed)
    (hYields : Yields e.add p i q) :
    q.Resolves i e := by
  cases e with
  | text s => exact Pooling.text_textAt? hIndexed hYields
  | classRef name => exact Pooling.classRef_classAt? hIndexed hYields
  | string s =>
      rcases yields_bind.mp hYields with ⟨v, p₁, hText, hString⟩
      have hFirst := (Pooling.grows_text s).of_yields hText
      have hNext := (Pooling.grows_add
        (c := .string v) trivial).of_yields hString
      exact ⟨v, Pooling.add_get? (hFirst.indexed hIndexed) hString,
        hNext.within.textAt? (Pooling.text_textAt? hIndexed hText)⟩
  | nameAndType name descriptor =>
      exact Pooling.nameAndType_nameAndTypeAt? hIndexed hYields
  | member kind owner name descriptor =>
      exact Pooling.member_memberAt? hIndexed hYields
  | _ => exact Pooling.add_get? hIndexed hYields

/- Asked for more, a consistent pool extends. -/
theorem extends_foldl_put
    (es : List Entry)
    (hSound : p.Sound)
    (hConsistent : p.Consistent) :
    p.Extends (es.foldl put p) := by
  induction es generalizing p with
  | nil => exact ⟨hSound, hConsistent, List.prefix_refl _⟩
  | cons e es ih =>
      have hFirst : p.Extends (p.put e) :=
        (e.maintains p hSound hConsistent trivial).1
      have hMore := ih hFirst.sound hFirst.consistent
      exact { hMore with stays := hFirst.stays.trans hMore.stays }

/-
  A pool that was filled is consistent, whichever entries it had
  no room for.  It only extends when it is asked for more, and
  an index that it gives leads to its entry from then on.
-/
theorem ofEntries_consistent
    (es : List Entry) :
    (ofEntries es).Consistent ∧
      ∀ (e : Entry) (more : List Entry),
        (ofEntries es).entries.toList <+:
          (ofEntries (es ++ e :: more)).entries.toList ∧
        ∀ i, (outcomeOf e.add (ofEntries es)).1 = .ok i →
          (ofEntries (es ++ e :: more)).Resolves i e := by
  have hFilled :=
    extends_foldl_put es sound_empty consistent_empty
  refine ⟨hFilled.consistent, ?_⟩
  intro e more
  have hMore : ofEntries (es ++ e :: more) =
      (e :: more).foldl put (ofEntries es) :=
    List.foldl_append
  rw [hMore]
  refine ⟨(extends_foldl_put (e :: more) hFilled.sound
    hFilled.consistent).stays, ?_⟩
  intro i hIndex
  have hYields : Yields e.add (ofEntries es) i
      ((ofEntries es).put e) :=
    Prod.ext hIndex rfl
  have hHere := resolves_of_yields hFilled.sound.indexed hYields
  exact hHere.within (grown_foldl_put more _).within

end ConstantPool

------------------------------------------------------------
-- A Sample
------------------------------------------------------------

/- A text, a wide number and a string of the same text. -/
def sharedTextEntries : List Entry :=
  [.text "instance", .long 7, .string "instance",
    .member .field "a/B" "instance" "La/B;"]

/-
  The member is added behind the empty slot of the number and
  shares the text, and its index still leads to it when the
  class and the number are asked for again.
-/
theorem sharedTextEntries_consistent :
    (ConstantPool.ofEntries sharedTextEntries).Consistent ∧
      (outcomeOf
        (Entry.member .method "a/B" "instance" "()La/B;").add
        (ConstantPool.ofEntries sharedTextEntries)).1 = .ok 12 ∧
      (ConstantPool.ofEntries (sharedTextEntries ++
        [.member .method "a/B" "instance" "()La/B;",
          .classRef "a/B", .long 7])).memberAt? 12 =
        some { kind := .method, owner := "a/B", name := "instance"
               descriptor := "()La/B;" } := by
  have hIndex : (outcomeOf
      (Entry.member .method "a/B" "instance" "()La/B;").add
      (ConstantPool.ofEntries sharedTextEntries)).1.toOption =
        some 12 := by
    decide +kernel
  generalize hResult : (outcomeOf
    (Entry.member .method "a/B" "instance" "()La/B;").add
    (ConstantPool.ofEntries sharedTextEntries)).1 = result
    at hIndex
  cases result with
  | error e => cases hIndex
  | ok i =>
      cases hIndex
      have h := ConstantPool.ofEntries_consistent sharedTextEntries
      exact ⟨h.1, rfl, (h.2 _ _).2 12 hResult⟩

end Stratagem
