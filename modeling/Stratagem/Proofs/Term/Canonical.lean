import Stratagem.Proofs.Term.RealLiterals
import Stratagem.Proofs.Term.Writing

/-
  The canonical form of a text.

  A text that is read as a term can be written again, unless
  it has a real literal that is too large for a number: what
  the grammar takes for a name, the writer takes for one too.
  What is written reads back as the very same term, so that
  writing and reading once more changes nothing.

  Key definitions include:
    * `Grammar.Numeral.IsInfinite`
    * `Term.Spelled`

  Main declarations:
    * `Term.Alike.eq_of_spelled`
    * `Term.Spelled.fault?_eq_none_iff`
    * `Term.write_of_read`
-/

namespace Stratagem

open Grammar

------------------------------------------------------------
-- Reals
------------------------------------------------------------

/- No number is rounded to more than infinity. -/
theorem Binary.Format.ofDecimal_le_infinityBits
    (f : Format)
    (mantissa : Nat)
    (exponent : Int) :
    f.ofDecimal mantissa exponent ≤ f.infinityBits := by
  unfold ofDecimal
  dsimp only
  split_ifs
  · exact Nat.zero_le _
  · exact Nat.le_refl _
  · exact Nat.zero_le _
  · unfold Format.nearest
    dsimp only
    split_ifs
    · exact Nat.zero_le _
    · exact Nat.min_le_left _ _

/- The nearest number is an infinity, with the written sign. -/
def Grammar.Numeral.IsInfinite
    (x : Numeral) : Prop :=
  Binary.Format.double.decode x.nearest.bits.toNat =
    .infinite x.negative

/-
  What is nearest to a decimal is finite or an infinity: the
  greatest pattern behind the sign is that of infinity.
-/
theorem Grammar.Numeral.isFinite_nearest
    (x : Numeral) :
    x.nearest.isFinite = false ↔ x.IsInfinite := by
  have hMost := Binary.Format.double.ofDecimal_le_infinityBits
    (Nat.ofDigitChars 10 (x.ints ++ x.fractionDigits) 0)
    (Nat.ofDigitChars 10 x.exponentDigits 0 -
      x.fractionDigits.length)
  have hBits : x.nearest.bits.toNat =
      (if x.negative then 2 ^ 63 else 0) +
        Binary.Format.double.ofDecimal
          (Nat.ofDigitChars 10 (x.ints ++ x.fractionDigits) 0)
          (Nat.ofDigitChars 10 x.exponentDigits 0 -
            x.fractionDigits.length) := by
    refine (UInt64.toNat_ofNat' ..).trans (Nat.mod_eq_of_lt ?_)
    change _ ≤ 2047 * 2 ^ 52 at hMost
    change (if x.negative then 2 ^ 63 else 0) + _ < 2 ^ 64
    split_ifs
    all_goals omega
  unfold Binary64.isFinite IsInfinite
  rw [hBits]
  generalize Binary.Format.double.ofDecimal _ _ = code at hMost
  change code ≤ 2047 * 2 ^ 52 at hMost
  have hSign : (((if x.negative then 2 ^ 63 else 0) + code) /
      2 ^ 63 % 2 == 1) = x.negative := by
    cases x.negative <;> simp <;> omega
  have hFull : ((if x.negative then 2 ^ 63 else 0) + code) /
      2 ^ 52 % 2 ^ 11 = 2 ^ 11 - 1 →
        ((if x.negative then 2 ^ 63 else 0) + code) % 2 ^ 52 = 0 := by
    cases x.negative <;> simp <;> omega
  generalize (if x.negative then 2 ^ 63 else 0) + code = n
    at hSign hFull
  unfold Binary.Format.decode
  dsimp only
  split
  case isTrue hExponent =>
      have hFraction :
          n % Nat.pow 2 Binary.Format.double.fraction = 0 :=
        hFull hExponent
      rw [if_pos hFraction]
      exact iff_of_true rfl (congrArg Binary.Value.infinite hSign)
  case isFalse =>
      split
      · exact iff_of_false Bool.noConfusion nofun
      · exact iff_of_false Bool.noConfusion nofun

------------------------------------------------------------
-- Spelled Terms
------------------------------------------------------------

/- Terms that some text spells. -/
def Term.Spelled
    (t : Term) : Prop :=
  ∃ cs, Spells cs t

namespace Grammar

theorem mem_spellsSome
    {cs : List Char}
    {ts : List Term}
    (hSpells : SpellsSome cs ts) :
    ∀ t ∈ ts, t.Spelled := by
  induction ts generalizing cs with
  | nil => exact List.forall_mem_nil _
  | cons t ts ih =>
      cases hSpells with
      | one hOnly => exact List.forall_mem_singleton.mpr ⟨_, hOnly⟩
      | more hFirst _ hOthers =>
          exact List.forall_mem_cons.mpr ⟨⟨_, hFirst⟩, ih hOthers⟩

theorem mem_spellsTerms
    {cs : List Char}
    {ts : List Term}
    (hSpells : SpellsTerms cs ts) :
    ∀ t ∈ ts, t.Spelled := by
  cases hSpells with
  | none => nofun
  | some hSome => exact mem_spellsSome hSome

/- The parts of what is spelled are spelled. -/
theorem mem_spellsCore
    {cs : List Char}
    {p : Payload}
    (hSpells : SpellsCore cs p) :
    ∀ t ∈ (Term.plain p).subterms ++
      (Term.plain p).template?.toList, t.Spelled := by
  cases hSpells with
  | list hTerms =>
      rw [List.forall_mem_append]
      exact ⟨mem_spellsTerms hTerms, nofun⟩
  | tuple hTerms =>
      rw [List.forall_mem_append]
      exact ⟨mem_spellsTerms hTerms, nofun⟩
  | application _ _ hTerms =>
      rw [List.forall_mem_append]
      exact ⟨mem_spellsTerms hTerms, nofun⟩
  | constant => nofun
  | string => nofun
  | placeholder hTemplate =>
      exact List.forall_mem_singleton.mpr ⟨_, hTemplate⟩
  | number _ hDenotes =>
      cases hDenotes with
      | int => nofun
      | real => nofun

end Grammar

namespace Term.Spelled

variable {t u : Term}

/- A spelled term is its payload with its annotations. -/
theorem eq_annotated
    (hSpelled : t.Spelled) :
    t = (Term.plain t.payload).annotated t.annotations := by
  rcases hSpelled with ⟨cs, hSpells⟩
  cases hSpells with
  | plain => rfl
  | @annotated _ _ _ _ _ _ ts =>
      cases ts with
      | nil => rfl
      | cons => rfl

theorem child
    (hSpelled : t.Spelled)
    (hPart : u ∈ t.children) :
    u.Spelled := by
  rcases hSpelled with ⟨cs, hSpells⟩
  cases hSpells with
  | plain _ hCore =>
      rcases List.mem_append.mp hPart with hOwn | hNote
      · exact mem_spellsCore hCore u hOwn
      · cases hNote
  | @annotated _ _ _ _ _ _ ts _ hCore _ hTerms =>
      rcases List.mem_append.mp hPart with hOwn | hNote
      · exact mem_spellsCore hCore u hOwn
      · refine mem_spellsTerms hTerms u ?_
        cases ts with
        | nil => exact hNote
        | cons => exact hNote

/- Only a real can be without a written form. -/
theorem unwritable_iff
    (hSpelled : t.Spelled) :
    t.payload.Unwritable ↔
      ∃ value, t.payload = .real value ∧ value.isFinite = false := by
  have hCore : ∃ cs, SpellsCore cs t.payload := by
    rcases hSpelled with ⟨cs, hSpells⟩
    cases hSpells with
    | plain _ hCore => exact ⟨_, hCore⟩
    | annotated _ hCore => exact ⟨_, hCore⟩
  rcases hCore with ⟨cs, hCore⟩
  generalize t.payload = p at hCore
  cases hCore with
  | list => exact iff_of_false id nofun
  | tuple => exact iff_of_false (fun hNot => hNot.1 rfl) nofun
  | application hName =>
      refine iff_of_false (fun hNot => hNot.2 ?_) nofun
      rwa [String.toList_ofList]
  | constant hName =>
      refine iff_of_false (fun hNot => hNot.2 ?_) nofun
      rwa [String.toList_ofList]
  | string => exact iff_of_false id nofun
  | placeholder => exact iff_of_false id nofun
  | number _ hDenotes =>
      cases hDenotes with
      | int => exact iff_of_false id nofun
      | real => simp [Payload.Unwritable]

end Term.Spelled

------------------------------------------------------------
-- Terms Alike
------------------------------------------------------------

theorem eq_of_forall₂
    {α : Type}
    {R : α → α → Prop}
    {xs ys : List α}
    (hAll : List.Forall₂ R xs ys)
    (hSame : ∀ x ∈ xs, ∀ y ∈ ys, R x y → x = y) :
    xs = ys := by
  induction hAll with
  | nil => rfl
  | @cons x y xs ys hFirst _ ih =>
      have hHead := hSame x List.mem_cons_self y
        List.mem_cons_self hFirst
      have hTail := ih fun x hx y hy =>
        hSame x (List.mem_cons_of_mem _ hx) y
          (List.mem_cons_of_mem _ hy)
      rw [hHead, hTail]

theorem Term.mem_children_of_subterm
    {t u : Term}
    (hSubterm : u ∈ t.subterms) :
    u ∈ t.children :=
  List.mem_append_left _ (List.mem_append_left _ hSubterm)

theorem Term.mem_children_of_template
    {t u : Term}
    (hTemplate : u ∈ t.template?.toList) :
    u ∈ t.children :=
  List.mem_append_left _ (List.mem_append_right _ hTemplate)

/- Spelled terms that are alike are the same. -/
theorem Term.Alike.eq_of_spelled
    {t u : Term}
    (hAlike : t.Alike u)
    (hLeft : t.Spelled)
    (hRight : u.Spelled) :
    t = u := by
  have hParts : ∀ vs ws : List Term,
      (∀ v ∈ vs, v ∈ t.children) → (∀ w ∈ ws, w ∈ u.children) →
        List.Forall₂ Term.Alike vs ws → vs = ws :=
    fun vs ws hvs hws hAll =>
      eq_of_forall₂ hAll fun v hv w hw hBoth =>
        hBoth.eq_of_spelled (hLeft.child (hvs v hv))
          (hRight.child (hws w hw))
  cases hAlike with
  | mk hPayload hNotes =>
      have hSameNotes : t.annotations = u.annotations :=
        hParts _ _ (fun v hv => List.mem_append_right _ hv)
          (fun w hw => List.mem_append_right _ hw) hNotes
      have hSame : t.payload = u.payload := by
        rcases t with ⟨p, a⟩
        rcases u with ⟨q, b⟩
        change p.Alike q at hPayload
        change p = q
        cases hPayload with
        | appl hArgs =>
            exact congrArg _ (hParts _ _
              (fun v hv => mem_children_of_subterm hv)
              (fun w hw => mem_children_of_subterm hw) hArgs)
        | list hElements =>
            exact congrArg _ (hParts _ _
              (fun v hv => mem_children_of_subterm hv)
              (fun w hw => mem_children_of_subterm hw) hElements)
        | @placeholder v w hTemplate =>
            have hOne := hParts [v] [w]
              (fun _ hv => mem_children_of_template hv)
              (fun _ hw => mem_children_of_template hw)
              (.cons hTemplate .nil)
            rw [(List.cons.inj hOne).1]
        | str => rfl
        | int => rfl
        | real => rfl
        | blob => rfl
        | var => rfl
      rw [hLeft.eq_annotated, hRight.eq_annotated, hSameNotes, hSame]
termination_by sizeOf t
decreasing_by exact Term.sizeOf_lt_of_mem_children (hvs v hv)

------------------------------------------------------------
-- Faults
------------------------------------------------------------

theorem mem_realsIn_iff
    (ts : List Term)
    (value : Binary64) :
    value ∈ realsIn ts ↔ ∃ t ∈ ts, value ∈ t.reals := by
  induction ts with
  | nil => simp [realsIn]
  | cons t ts ih =>
      rw [realsIn, List.mem_append, ih, List.exists_mem_cons_iff]

/- A real of a term is the term itself or a real of a part. -/
theorem Term.mem_reals_iff
    (t : Term)
    (value : Binary64) :
    value ∈ t.reals ↔
      t.payload = .real value ∨ ∃ u ∈ t.children, value ∈ u.reals := by
  rcases t with ⟨p, ⟨notes, others⟩⟩
  have hNotes : value ∈ Attachments.reals ⟨notes, others⟩ ↔
      ∃ u ∈ notes.getD [], value ∈ u.reals := by
    cases notes with
    | none => simp [Attachments.reals]
    | some ts => exact mem_realsIn_iff ts value
  have hParts : value ∈ p.reals ↔ p = .real value ∨
      ∃ u ∈ (Term.mk p ⟨notes, others⟩).subterms ++
        (Term.mk p ⟨notes, others⟩).template?.toList,
        value ∈ u.reals := by
    cases p with
    | appl constructor args =>
        simp [Payload.reals, mem_realsIn_iff, subterms, template?,
          payload]
    | list ts =>
        simp [Payload.reals, mem_realsIn_iff, subterms, template?,
          payload]
    | real =>
        simp [Payload.reals, subterms, template?, payload, eq_comm]
    | placeholder => simp [Payload.reals, subterms, template?, payload]
    | str => simp [Payload.reals, subterms, template?, payload]
    | int => simp [Payload.reals, subterms, template?, payload]
    | blob => simp [Payload.reals, subterms, template?, payload]
    | var => simp [Payload.reals, subterms, template?, payload]
  rw [Term.reals, List.mem_append, hParts, hNotes, or_assoc]
  refine or_congr_right ?_
  simp only [← exists_or, ← or_and_right, ← List.mem_append]
  rfl

/- A spelled term is faultless if all its reals are finite. -/
theorem Term.Spelled.fault?_eq_none_iff
    {t : Term}
    (hSpelled : t.Spelled) :
    t.fault? = none ↔ ∀ value ∈ t.reals, value.isFinite = true := by
  have hParts : (∀ u ∈ t.children, u.fault? = none) ↔
      ∀ u ∈ t.children, ∀ value ∈ u.reals,
        value.isFinite = true :=
    forall₂_congr fun u hu =>
      (hSpelled.child hu).fault?_eq_none_iff
  rw [fault?_step, hSpelled.unwritable_iff, hParts]
  simp only [t.mem_reals_iff]
  constructor
  · rintro ⟨hOwn, hOthers⟩ value (hReal | ⟨u, hu, hReal⟩)
    · rw [← Bool.not_eq_false]
      exact fun hInfinite => hOwn ⟨value, hReal, hInfinite⟩
    · exact hOthers u hu value hReal
  · intro hAll
    refine ⟨?_, fun u hu value hReal =>
      hAll value (.inr ⟨u, hu, hReal⟩)⟩
    rintro ⟨value, hReal, hInfinite⟩
    rw [hAll value (.inl hReal)] at hInfinite
    cases hInfinite
termination_by sizeOf t
decreasing_by exact Term.sizeOf_lt_of_mem_children hu

------------------------------------------------------------
-- Writing what was Read
------------------------------------------------------------

/- What is read is spelled. -/
theorem Term.spelled_of_read
    {s : String}
    {t : Term}
    (hRead : Term.read s = .ok t) :
    t.Spelled := by
  have hSpells := spellsText_of_read hRead
  generalize s.toList = text at hSpells
  cases hSpells with
  | mk hTerm => exact ⟨_, hTerm⟩

/- A term is not written for its first fault. -/
theorem Term.write_eq_error_iff
    (t : Term)
    (e : WriteError) :
    t.write = .error e ↔ t.fault? = some e := by
  unfold write
  split
  case h_1 hFault => simp [hFault]
  case h_2 hNone => simp [hNone]

/-
  A term that was read can be written unless its text has a
  real literal that is infinite.  What is written reads back
  as this very term, its annotations included, and is written
  as the same text again.
-/
theorem Term.write_of_read
    {s : String}
    {t : Term}
    (hRead : Term.read s = .ok t) :
    ((∃ e, t.write = .error e) ↔
      ∃ x ∈ realLiterals s.toList, x.IsInfinite) ∧
    ∀ w, t.write = .ok w →
      ∃ u, Term.read w = .ok u ∧ u = t ∧ u.write = .ok w := by
  have hSpelled := spelled_of_read hRead
  constructor
  · simp only [write_eq_error_iff]
    rw [← Option.ne_none_iff_exists', ne_eq, hSpelled.fault?_eq_none_iff, reals_of_read hRead]
    simp only [realValues, List.forall_mem_map, ← Bool.not_eq_false,
      Numeral.isFinite_nearest, not_forall, not_not, exists_prop]
  · intro w hWrite
    rcases read_of_write hWrite with ⟨u, hAgain, hAlike⟩
    have hSame := hAlike.eq_of_spelled hSpelled (spelled_of_read hAgain)
    exact ⟨u, hAgain, hSame.symm, hSame ▸ hWrite⟩

/- A pair whose second part is an annotated placeholder. -/
def spacedSample : Term :=
  Term.appl ""
    [.plain (.int (-1)),
      (Term.plain (.placeholder (Term.appl "a-b" []))).annotated
        [.plain (.list [])]]

/- The number with the text `-1`. -/
def minusOneNumeral : Numeral :=
  ⟨true, ['1'], none, none⟩

/- The number with the text `1e400`. -/
def hugeNumeral : Numeral :=
  ⟨false, ['1'], none, some ('e', ['4', '0', '0'])⟩

/- The sample with blanks wherever they may be. -/
theorem spacedSample_spelled :
    SpellsText "( -1 , <a-b> { [ ] } ) ".toList spacedSample := by
  have hLegal : minusOneNumeral.Legal := by
    refine ⟨List.all_eq_true.mp (by decide),
      List.all_eq_true.mp (by decide), List.all_eq_true.mp (by decide),
      ?_, Or.inl (List.cons_ne_nil _ _)⟩
    rintro e ⟨⟩
  have hNumber : Spells " -1".toList (.plain (.int (-1))) :=
    .plain blanks_space
      (.number hLegal (.int (-1) rfl rfl (by decide)))
  have hName : Identifier "a-b".toList :=
    .mk (by decide) (List.all_eq_true.mp (by decide)) (by rintro ⟨⟩)
  have hTemplate : Spells "a-b".toList (Term.appl "a-b" []) :=
    .plain blanks_nil (.constant hName)
  have hNotes : SpellsTerms " [ ]".toList [.plain (.list [])] :=
    .some (.one (.plain blanks_space (.list .none blanks_space)))
  have hNoted : Spells " <a-b> { [ ] }".toList
      ((Term.plain (.placeholder (Term.appl "a-b" []))).annotated
        [.plain (.list [])]) :=
    .annotated blanks_space (.placeholder hTemplate blanks_nil)
      blanks_space hNotes blanks_space
  have hPair : SpellsTerms " -1 , <a-b> { [ ] }".toList
      [.plain (.int (-1)),
        (Term.plain (.placeholder (Term.appl "a-b" []))).annotated
          [.plain (.list [])]] :=
    .some (.more hNumber blanks_space (.one hNoted))
  exact .mk (.plain blanks_nil (.tuple hPair blanks_space))
    blanks_space

/- A text that is written again, and one that is not. -/
theorem spacedSample_rewritten :
    (Term.read "( -1 , <a-b> { [ ] } ) " = .ok spacedSample ∧
      Term.read "(-1, <a-b()>{[]})" = .ok spacedSample) ∧
    ∃ t e, Term.read "1e400" = .ok t ∧ t.write = .error e := by
  have hSpaced : Term.read "( -1 , <a-b> { [ ] } ) " =
      .ok spacedSample :=
    Term.read_of_spellsText spacedSample_spelled
  have hShown : spacedSample.display = "(-1, <a-b()>{[]})" := by
    decide +kernel
  have hWrite := Term.write_eq_ok
    (show spacedSample.fault? = none by decide +kernel)
  rw [hShown] at hWrite
  rcases (Term.write_of_read hSpaced).2 _ hWrite with
    ⟨u, hAgain, hSame, -⟩
  have hLegal : hugeNumeral.Legal := by
    refine ⟨List.all_eq_true.mp (by decide),
      List.all_eq_true.mp (by decide), List.all_eq_true.mp (by decide),
      ?_, Or.inl (List.cons_ne_nil _ _)⟩
    rintro e ⟨⟩
    exact Or.inl rfl
  have hText : "1e400".toList = [] ++ hugeNumeral.text ++ [] := by
    decide
  have hHuge : Term.read "1e400" =
      .ok (.plain (.real hugeNumeral.nearest)) := by
    apply Term.read_of_spellsText
    rw [hText]
    exact .mk (.plain blanks_nil
      (.number hLegal (.real (.inr (Option.some_ne_none _)))))
      blanks_nil
  have hEnd : Reader.Stops Reader.prolongs [] := by
    intro c hHead
    cases hHead
  have hFound : hugeNumeral ∈ realLiterals "1e400".toList := by
    rw [hText, List.nil_append, realLiterals,
      numerals_number hLegal hEnd, numerals]
    exact List.mem_singleton_self hugeNumeral
  have hInfinite : hugeNumeral.IsInfinite := by
    rw [← Numeral.isFinite_nearest]
    decide +kernel
  rcases (Term.write_of_read hHuge).1.mpr
    ⟨hugeNumeral, hFound, hInfinite⟩ with ⟨e, hError⟩
  exact ⟨⟨hSpaced, hSame ▸ hAgain⟩, _, e, hHuge, hError⟩

end Stratagem
