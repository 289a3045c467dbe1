import Stratagem.Proofs.Jvm.Fidelity
import Stratagem.Proofs.Jvm.Slices

/-
  A type is read from its own characters.

  What follows a type has no part in how it is read, and
  neither has the number of calls that a reader may make, once
  there are two for each character.  A type ends with a mark of
  one byte, so that it is found as well in a slice of a text
  that was cut within a character.

  Key definitions include:
    * `Jvm.Closed`
    * `Jvm.Parser.Cuts`

  Main declarations:
    * `Jvm.Parser.ty_cuts`
    * `Jvm.Parser.ty_stable`
    * `Jvm.Ty.parseAt_eq_ok_iff`
    * `Jvm.Ty.parseAt_local`
-/

namespace Stratagem

namespace Jvm

------------------------------------------------------------
-- What Is Cut Off
------------------------------------------------------------

/- Characters of which the last one takes one byte. -/
def Closed
    (used : List Char) : Prop :=
  ∃ front c, used = front ++ [c] ∧ c.utf8Size = 1

theorem Closed.append
    {used : List Char}
    (before : List Char)
    (hClosed : Closed used) :
    Closed (before ++ used) := by
  rcases hClosed with ⟨front, c, rfl, hSmall⟩
  exact ⟨before ++ front, c, (List.append_assoc ..).symm, hSmall⟩

theorem Closed.cons
    {used : List Char}
    (c : Char)
    (hClosed : Closed used) :
    Closed (c :: used) :=
  hClosed.append [c]

theorem Closed.ne_nil
    {used : List Char}
    (hClosed : Closed used) :
    used ≠ [] := by
  rcases hClosed with ⟨front, c, rfl, -⟩
  simp

namespace Parser

/-
  Characters that a reader turns into a result whatever follows
  them, if it may call itself twice for each of them.  What it
  would show if it failed has no part in that.
-/
structure Cuts
    {α : Type}
    (p : List Char → Nat → List Char →
      Except Fault (α × List Char))
    (used : List Char)
    (a : α) : Prop where
  closed : Closed used
  again : ∀ whole n rest, 2 * used.length ≤ n →
    p whole n (used ++ rest) = .ok (a, rest)

------------------------------------------------------------
-- Single Steps
------------------------------------------------------------

theorem startsBound_iff
    {c : Char}
    {cs : List Char} :
    startsBound (c :: cs) = true ↔ c = 'L' ∨ c = 'T' ∨ c = '[' := by
  unfold startsBound
  split <;> simp_all

theorem startsBound_append
    {cs rest more : List Char}
    (hSome : cs ≠ [])
    (hBound : startsBound (cs ++ rest) = true) :
    startsBound (cs ++ more) = true := by
  cases cs with
  | nil => exact absurd rfl hSome
  | cons c cs => exact startsBound_iff.mpr (startsBound_iff.mp hBound)

theorem arguments_start
    {n : Nat}
    {cs more : List Char}
    {t : Ty}
    (hFirst : ty n false cs = .ok (t, more)) :
    cs ≠ [] ∧ ∀ tail, cs ≠ '>' :: tail := by
  cases n with
  | zero => cases hFirst
  | succ n =>
      constructor
      · rintro rfl
        cases hFirst
      · rintro tail rfl
        cases hFirst

/- The last argument of a class. -/
theorem arguments_last
    {n : Nat}
    {cs rest : List Char}
    {t : Ty}
    (whole : List Char)
    (hFirst : ty n false cs = .ok (t, '>' :: rest)) :
    arguments (n + 1) whole cs = .ok ([asArgument t], rest) := by
  rcases arguments_start hFirst with ⟨hSome, hOpen⟩
  rw [arguments]
  · rw [hFirst]
    rfl
  · exact hSome
  · exact hOpen

/- An argument in front of others. -/
theorem arguments_more
    {n : Nat}
    {cs more rest : List Char}
    {t : Ty}
    {ts : List Ty}
    {whole : List Char}
    (hFirst : ty n false cs = .ok (t, more))
    (hMore : arguments n whole more = .ok (ts, rest)) :
    arguments (n + 1) whole cs = .ok (asArgument t :: ts, rest) := by
  rcases arguments_start hFirst with ⟨hSome, hOpen⟩
  rw [arguments]
  · rw [hFirst]
    simp only [bind, Except.bind]
    split
    case h_1 =>
        cases n with
        | zero => cases hMore
        | succ n => cases hMore
    case h_2 =>
        rw [hMore]
        rfl
  · exact hSome
  · exact hOpen

------------------------------------------------------------
-- What Follows Has No Part
------------------------------------------------------------

section Steps

variable {α : Type} {a : α} {used : List Char}
variable {p : List Char → Nat → List Char →
  Except Fault (α × List Char)}
variable {erased : Bool}

/- One more character pays for the call that reads it. -/
theorem Cuts.ty_cons
    {c : Char}
    (f : α → Ty)
    (hCuts : Cuts p used a)
    (hStep : ∀ n tail, used ≠ [] →
      ty (n + 1) erased (c :: (used ++ tail)) =
        (p (c :: (used ++ tail)) n (used ++ tail)).map
          fun (a, rest) => (f a, rest)) :
    Cuts (fun _ n cs => ty n erased cs) (c :: used) (f a) := by
  refine ⟨hCuts.closed.cons c, fun _ n tail hFuel => ?_⟩
  rw [List.length_cons] at hFuel
  cases n with
  | zero => omega
  | succ n =>
      rw [List.cons_append, hStep n tail hCuts.closed.ne_nil,
        hCuts.again _ n tail (by omega)]
      rfl

/- The next class of a chain pays for the mark before it. -/
theorem Cuts.goOn_cons
    {mark : Char}
    {made o : ClassTy}
    {make : String → List Ty → ClassTy}
    (hCuts : Cuts (fun whole n cs => segments n erased whole make cs)
      used o)
    (hStep : ∀ whole n tail, goOn n erased whole made (mark :: tail) =
      segments n erased whole make tail) :
    Cuts (fun whole n cs => goOn n erased whole made cs)
      (mark :: used) o := by
  refine ⟨hCuts.closed.cons mark, fun whole n tail hFuel => ?_⟩
  rw [List.length_cons] at hFuel
  rw [List.cons_append, hStep]
  exact hCuts.again whole n tail (by omega)

end Steps

/- Behind a class there is a mark, and perhaps the next class. -/
theorem goOn_cuts
    {n : Nat}
    {erased : Bool}
    {whole cs rest : List Char}
    {made o : ClassTy}
    (hChain : ∀ {make : String → List Ty → ClassTy} {more},
      segments n erased whole make more = .ok (o, rest) →
      ∃ used, more = used ++ rest ∧
        Cuts (fun whole m cs => segments m erased whole make cs)
          used o)
    (hRead : goOn n erased whole made cs = .ok (o, rest)) :
    ∃ mark used, mark ∈ [';', '.', '$'] ∧
      cs = mark :: used ++ rest ∧
      Cuts (fun whole m cs => goOn m erased whole made cs)
        (mark :: used) o := by
  rcases goOn_cases hRead with
    ⟨rfl, rfl⟩ | ⟨more, rfl, hNext⟩ | ⟨more, rfl, hNext⟩
  · refine ⟨';', [], by simp, rfl, ⟨[], ';', rfl, rfl⟩, ?_⟩
    intro whole m tail hFuel
    rfl
  · rcases hChain hNext with ⟨used, rfl, hCuts⟩
    exact ⟨'.', used, by simp, rfl,
      hCuts.goOn_cons fun _ _ _ => rfl⟩
  · rcases hChain hNext with ⟨used, rfl, hCuts⟩
    exact ⟨'$', used, by simp, rfl,
      hCuts.goOn_cons fun _ _ _ => rfl⟩

mutual

/- A type is read in the same way whatever follows it. -/
theorem ty_cuts
    {n : Nat}
    {erased : Bool}
    {cs rest : List Char}
    {t : Ty}
    (hRead : ty n erased cs = .ok (t, rest)) :
    ∃ used, cs = used ++ rest ∧
      Cuts (fun _ m cs => ty m erased cs) used t := by
  match n, cs with
  | 0, cs =>
      rw [ty] at hRead
      cases hRead
  | n + 1, [] =>
      rw [ty] at hRead
      cases hRead
  | n + 1, c :: cs =>
      rcases ty_cases hRead with
        ⟨p, rfl, rfl, rfl⟩ | ⟨rfl, u, rfl, hInner⟩ |
        ⟨rfl, o, rfl, hChain⟩ | ⟨rfl, hVariable⟩ |
        ⟨rfl, rfl, rfl⟩ | ⟨rfl, u, rfl, hInner⟩ |
        ⟨rfl, u, rfl, hInner⟩
      · refine ⟨[p.letter], rfl, ⟨[], _, rfl, by cases p <;> rfl⟩, ?_⟩
        intro _ m tail hFuel
        cases m with
        | zero => cases hFuel
        | succ m =>
            rw [List.singleton_append, ty]
            cases p <;> rfl
      · rcases ty_cuts hInner with ⟨used, rfl, hCuts⟩
        exact ⟨'[' :: used, rfl, hCuts.ty_cons .array
          fun m tail hSome => ty_array m erased (by simp [hSome])⟩
      · rcases segments_cuts hChain with ⟨used, rfl, hCuts⟩
        exact ⟨'L' :: used, rfl, hCuts.ty_cons .object
          fun m tail _ => ty_class m erased _⟩
      · rcases variableTy_cases hVariable with
          ⟨name, hName, rfl, rfl⟩
        rcases sign_of_ty (by simp) hRead with ⟨rfl, -⟩
        refine ⟨'T' :: (name.toList ++ [';']), by simp,
          ⟨'T' :: name.toList, ';', rfl, rfl⟩, ?_⟩
        intro _ m tail hFuel
        cases m with
        | zero => cases hFuel
        | succ m => simpa using ty_variable m tail hName
      · rcases sign_of_ty (by simp) hRead with ⟨rfl, -⟩
        refine ⟨['*'], rfl, ⟨[], '*', rfl, rfl⟩, ?_⟩
        intro _ m tail hFuel
        cases m with
        | zero => cases hFuel
        | succ m => rfl
      · rcases sign_of_ty (by simp) hRead with ⟨rfl, hBound⟩
        rcases ty_cuts hInner with ⟨used, rfl, hCuts⟩
        exact ⟨'+' :: used, rfl,
          hCuts.ty_cons (fun u => .argument (.covariant u))
            fun m tail hSome => ty_signed m (.inl rfl)
              (startsBound_append hSome (hBound (.inl rfl)))⟩
      · rcases sign_of_ty (by simp) hRead with ⟨rfl, hBound⟩
        rcases ty_cuts hInner with ⟨used, rfl, hCuts⟩
        exact ⟨'-' :: used, rfl,
          hCuts.ty_cons (fun u => .argument (.contravariant u))
            fun m tail hSome => ty_signed m (.inr rfl)
              (startsBound_append hSome (hBound (.inr rfl)))⟩

theorem segments_cuts
    {n : Nat}
    {erased : Bool}
    {whole cs rest : List Char}
    {make : String → List Ty → ClassTy}
    {o : ClassTy}
    (hRead : segments n erased whole make cs = .ok (o, rest)) :
    ∃ used, cs = used ++ rest ∧
      Cuts (fun whole m cs => segments m erased whole make cs)
        used o := by
  match n with
  | 0 =>
      rw [segments] at hRead
      cases hRead
  | n + 1 =>
      rcases segments_cases hRead with
        ⟨name, args, more, hName, hArgs, hNext⟩
      rcases goOn_cuts (fun hMore => segments_cuts hMore) hNext with
        ⟨mark, last, hMark, rfl, hLast⟩
      have hLength := hName.length_pos
      rcases hArgs with ⟨rfl, rfl⟩ | ⟨rfl, inside, rfl, hInside⟩
      · refine ⟨name.toList ++ mark :: last, by simp,
          hLast.closed.append name.toList, ?_⟩
        intro whole m tail hFuel
        rw [List.length_append] at hFuel
        cases m with
        | zero => omega
        | succ m =>
            have hAgain := hLast.again whole m tail (by omega)
            rw [List.cons_append] at hAgain
            rw [List.append_assoc, List.cons_append,
              segments_plain hName hMark, hAgain]
      · rcases arguments_cuts hInside with ⟨first, rfl, hFirst⟩
        refine ⟨name.toList ++ '<' :: (first ++ mark :: last),
          by simp, ((hLast.closed.append first).cons '<').append
            name.toList, ?_⟩
        intro whole m tail hFuel
        simp only [List.length_append, List.length_cons] at hFuel
        cases m with
        | zero => omega
        | succ m =>
            have hRead := hFirst.again whole m (mark :: last ++ tail)
              (by omega)
            have hAgain := hLast.again whole m tail (by
              rw [List.length_cons]
              omega)
            rw [List.append_assoc, List.cons_append,
              List.append_assoc, segments_open hName hRead, hAgain]

theorem arguments_cuts
    {n : Nat}
    {whole cs rest : List Char}
    {ts : List Ty}
    (hRead : arguments n whole cs = .ok (ts, rest)) :
    ∃ used, cs = used ++ rest ∧
      Cuts (fun whole m cs => arguments m whole cs) used ts := by
  match n with
  | 0 =>
      rw [arguments] at hRead
      cases hRead
  | n + 1 =>
      rcases arguments_cases hRead with
        ⟨t, us, more, rfl, hFirst, hMore⟩
      rcases ty_cuts hFirst with ⟨first, rfl, hCuts⟩
      rcases hMore with ⟨rfl, rfl⟩ | hRest
      · refine ⟨first ++ ['>'], by simp, ⟨first, '>', rfl, rfl⟩, ?_⟩
        intro whole m tail hFuel
        rw [List.length_append, List.length_singleton] at hFuel
        cases m with
        | zero => omega
        | succ m =>
            have hAgain := hCuts.again whole m ('>' :: tail)
              (by omega)
            rw [List.append_assoc, List.singleton_append]
            exact arguments_last whole hAgain
      · rcases arguments_cuts hRest with ⟨last, rfl, hLast⟩
        refine ⟨first ++ last, by simp, hLast.closed.append first, ?_⟩
        intro whole m tail hFuel
        have hSome := List.length_pos_iff.mpr hCuts.closed.ne_nil
        have hMore := List.length_pos_iff.mpr hLast.closed.ne_nil
        rw [List.length_append] at hFuel
        cases m with
        | zero => omega
        | succ m =>
            have hAgain := hCuts.again whole m (last ++ tail)
              (by omega)
            have hBehind := hLast.again whole m tail (by omega)
            rw [List.append_assoc]
            exact arguments_more hAgain hBehind

end

------------------------------------------------------------
-- The Number of Calls Has No Part
------------------------------------------------------------

/- What is left behind a part of a text is shorter. -/
theorem Cuts.length_lt
    {α : Type}
    {p : List Char → Nat → List Char →
      Except Fault (α × List Char)}
    {used : List Char}
    {a : α}
    (hCuts : Cuts p used a)
    (rest : List Char) :
    rest.length < (used ++ rest).length := by
  have hSome := List.length_pos_iff.mpr hCuts.closed.ne_nil
  rw [List.length_append]
  omega

theorem length_lt_of_ty
    {n : Nat}
    {erased : Bool}
    {cs rest : List Char}
    {t : Ty}
    (hRead : ty n erased cs = .ok (t, rest)) :
    rest.length < cs.length := by
  rcases ty_cuts hRead with ⟨used, rfl, hCuts⟩
  exact hCuts.length_lt rest

theorem length_lt_of_arguments
    {n : Nat}
    {whole cs rest : List Char}
    {ts : List Ty}
    (hRead : arguments n whole cs = .ok (ts, rest)) :
    rest.length < cs.length := by
  rcases arguments_cuts hRead with ⟨used, rfl, hCuts⟩
  exact hCuts.length_lt rest

theorem goOn_stable
    {n : Nat}
    {erased : Bool}
    {whole cs : List Char}
    {made : ClassTy}
    (hChain : ∀ (make : String → List Ty → ClassTy) more,
      more.length < cs.length →
      segments (n + 1) erased whole make more =
        segments n erased whole make more) :
    goOn (n + 1) erased whole made cs =
      goOn n erased whole made cs := by
  unfold goOn
  split
  case h_1 => rfl
  case h_2 more => exact hChain _ more (Nat.lt_succ_self _)
  case h_3 more => exact hChain _ more (Nat.lt_succ_self _)
  case h_4 => rfl

theorem argsOf_stable
    {n : Nat}
    {erased : Bool}
    {whole cs : List Char}
    (hInside : ∀ inside : List Char, inside.length < cs.length →
      arguments (n + 1) whole inside = arguments n whole inside) :
    argsOf (n + 1) erased whole cs = argsOf n erased whole cs := by
  unfold argsOf
  split
  case h_1 inside => rw [hInside inside (Nat.lt_succ_self _)]
  case h_2 => rfl

theorem length_le_of_argsOf
    {n : Nat}
    {erased : Bool}
    {whole cs rest : List Char}
    {args : List Ty}
    (hRead : argsOf n erased whole cs = .ok (args, rest)) :
    rest.length ≤ cs.length := by
  rcases argsOf_cases hRead with ⟨-, rfl⟩ | ⟨-, inside, rfl, hInside⟩
  · exact Nat.le_refl _
  · exact Nat.le_succ_of_le
      (Nat.le_of_lt (length_lt_of_arguments hInside))

mutual

/- More calls than two for each character change nothing. -/
theorem ty_stable
    {n : Nat}
    {erased : Bool}
    {cs : List Char}
    (hEnough : 2 * cs.length < n) :
    ty (n + 1) erased cs = ty n erased cs := by
  match n, cs with
  | n + 1, [] => rw [ty, ty]
  | n + 1, c :: cs =>
      rw [List.length_cons] at hEnough
      have hTy : ∀ plain, ty (n + 1) plain cs = ty n plain cs :=
        fun _ => ty_stable (by omega)
      have hSegments :
          segments (n + 1) erased (c :: cs) .top cs =
            segments n erased (c :: cs) .top cs :=
        segments_stable (by omega)
      rw [ty, ty, hTy, hTy, hSegments]

theorem segments_stable
    {n : Nat}
    {erased : Bool}
    {whole cs : List Char}
    {make : String → List Ty → ClassTy}
    (hEnough : 2 * cs.length + 1 < n) :
    segments (n + 1) erased whole make cs =
      segments n erased whole make cs := by
  match n with
  | n + 1 =>
      have hLe :=
        (List.dropWhile_sublist (l := cs) (!endsName ·)).length_le
      have hArgs :
          argsOf (n + 1) erased whole (cs.dropWhile (!endsName ·)) =
            argsOf n erased whole (cs.dropWhile (!endsName ·)) :=
        argsOf_stable fun inside hInside =>
          arguments_stable (by omega)
      rw [segments_eq, segments_eq, hArgs]
      split
      case isTrue => rfl
      case isFalse =>
          cases hFound :
              argsOf n erased whole (cs.dropWhile (!endsName ·)) with
          | error e => rfl
          | ok found =>
              have hShorter := length_le_of_argsOf hFound
              exact goOn_stable fun make more hMore =>
                segments_stable (by omega)

theorem arguments_stable
    {n : Nat}
    {whole cs : List Char}
    (hEnough : 2 * cs.length + 1 < n) :
    arguments (n + 1) whole cs = arguments n whole cs := by
  match n with
  | n + 1 =>
      have hTy : ty (n + 1) false cs = ty n false cs :=
        ty_stable (by omega)
      rw [arguments.eq_def, arguments.eq_def]
      dsimp only
      split
      case h_1 => rfl
      case h_2 => rfl
      case h_3 =>
          rw [hTy]
          cases hFirst : ty n false cs with
          | error e => rfl
          | ok found =>
              rcases found with ⟨t, rest⟩
              have hShorter := length_lt_of_ty hFirst
              have hRest :
                  arguments (n + 1) whole rest =
                    arguments n whole rest :=
                arguments_stable (by omega)
              simp only [bind, Except.bind]
              split
              case h_1 => rfl
              case h_2 => rw [hRest]

end

/- What changes nothing from a number of calls on never does. -/
theorem eq_of_stable
    {β : Type}
    {f : Nat → β}
    {k n : Nat}
    (hStep : ∀ m, k < m → f (m + 1) = f m)
    (hEnough : k < n) :
    f n = f (k + 1) := by
  induction hEnough with
  | refl => rfl
  | step hMore ih => rw [hStep _ hMore, ih]

theorem ty_eq_run
    {n : Nat}
    {cs : List Char}
    (erased : Bool)
    (hEnough : 2 * cs.length < n) :
    ty n erased cs = run erased cs :=
  eq_of_stable (f := fun m => ty m erased cs)
    (fun _ hMore => ty_stable hMore) hEnough

theorem arguments_eq
    {n : Nat}
    {cs : List Char}
    (whole : List Char)
    (hEnough : 2 * cs.length + 1 < n) :
    arguments n whole cs = arguments (2 * cs.length + 2) whole cs :=
  eq_of_stable (f := fun m => arguments m whole cs)
    (fun _ hMore => arguments_stable hMore) hEnough

theorem parameters_stable
    {n : Nat}
    {whole cs : List Char}
    (hEnough : cs.length < n) :
    parameters (n + 1) whole cs = parameters n whole cs := by
  induction n generalizing cs with
  | zero => cases hEnough
  | succ n ih =>
      rw [parameters.eq_def, parameters.eq_def]
      dsimp only
      split
      case h_1 => rfl
      case h_2 => rfl
      case h_3 =>
          cases hFirst : run true cs with
          | error e => rfl
          | ok found =>
              rcases found with ⟨t, rest⟩
              have hShorter := length_lt_of_ty hFirst
              have hRest : parameters (n + 1) whole rest =
                  parameters n whole rest := ih (by omega)
              simp only [bind, Except.bind, hRest]

theorem parameters_eq
    {n : Nat}
    {cs : List Char}
    (whole : List Char)
    (hEnough : cs.length < n) :
    parameters n whole cs = parameters (cs.length + 1) whole cs :=
  eq_of_stable (f := fun m => parameters m whole cs)
    (fun _ hMore => parameters_stable hMore) hEnough

end Parser

------------------------------------------------------------
-- Slices of a Text
------------------------------------------------------------

namespace Ty

open Text

/- A type at the start of a slice takes the characters it needs. -/
theorem parseAt_eq_ok_iff
    {text : String}
    {start stop next : Nat}
    {erased : Bool}
    {t : Ty} :
    Ty.parseAt text start stop erased = .ok (t, next) ↔
      ∃ before used more, text.toList = before ++ (used ++ more) ∧
        byteCount before = start ∧ next = start + byteCount used ∧
        next ≤ stop ∧ stop ≤ byteCount text.toList ∧
        Parser.Cuts (fun _ n cs => Parser.ty n erased cs) used t := by
  constructor
  · intro hRead
    unfold parseAt at hRead
    dsimp only at hRead
    split at hRead
    case h_1 => split at hRead <;> cases hRead
    case h_2 tail hDrop =>
        rcases dropBytes_eq_some.mp hDrop with ⟨before, hText, hStart⟩
        split at hRead
        case isFalse => split at hRead <;> cases hRead
        case isTrue hBounds =>
            split at hRead
            case h_2 => cases hRead
            case h_1 u rest hRun =>
                rcases Parser.ty_cuts hRun with ⟨used, hPart, hCuts⟩
                rcases takeBytes_isPrefix (stop - start) tail with
                  ⟨cut, hTail⟩
                rcases hCuts.closed with ⟨front, c, hEnd, hSmall⟩
                have hTake : (takeBytes (stop - start) tail).1 =
                    front ++ c :: rest := by
                  rw [hPart, hEnd, List.append_assoc,
                    List.singleton_append]
                have hRoom := le_of_takeBytes hTake hSmall
                rw [← hEnd] at hRoom
                rw [hPart, byteCount_append,
                  Nat.add_sub_cancel] at hRead
                cases hRead
                refine ⟨before, used, rest ++ cut, ?_, hStart, rfl, ?_,
                  hBounds.2, hCuts⟩
                · rw [hText, ← hTail, hPart, List.append_assoc]
                · omega
  · rintro ⟨before, used, more, hText, hStart, rfl, hStop, hEnd,
      hCuts⟩
    have hDrop : dropBytes start text.toList = some (used ++ more) :=
      dropBytes_eq_some.mpr ⟨before, hText, hStart⟩
    have hPos := byteCount_pos hCuts.closed.ne_nil
    have hRoom : byteCount used ≤ stop - start := by omega
    rcases takeBytes_append more hRoom with ⟨rest, hTake⟩
    have hRun : Parser.run erased (used ++ rest) = .ok (t, rest) := by
      refine hCuts.again [] _ rest ?_
      rw [List.length_append]
      omega
    unfold parseAt
    dsimp only
    rw [hDrop]
    dsimp only
    rw [if_pos ⟨by omega, hEnd⟩, hTake, hRun]
    dsimp only
    rw [byteCount_append, Nat.add_sub_cancel]

/- Where the bytes of a type stand, it is read. -/
theorem parseAt_of_bytes
    {text other : String}
    {start stop next start' stop' : Nat}
    {erased : Bool}
    {t : Ty}
    (hRead : Ty.parseAt text start stop erased = .ok (t, next))
    (hBytes : ((bytes other).drop start').take (next - start) =
      ((bytes text).drop start).take (next - start))
    (hRoom : start' + (next - start) ≤ stop')
    (hStop : stop' ≤ (bytes other).length) :
    Ty.parseAt other start' stop' erased =
      .ok (t, start' + (next - start)) := by
  rcases parseAt_eq_ok_iff.mp hRead with
    ⟨before, used, more, hText, rfl, rfl, -, -, hCuts⟩
  have hHere :
      ((bytes text).drop (byteCount before)).take (byteCount used) =
        utf8 used := by
    rw [bytes_eq_utf8, hText, utf8_append, utf8_append,
      ← length_utf8 before, List.drop_left, ← length_utf8 used,
      List.take_left]
  rw [Nat.add_sub_cancel_left] at hBytes hRoom ⊢
  rw [hHere, bytes_eq_utf8] at hBytes
  rcases exists_split_of_utf8 hCuts.closed.ne_nil hBytes with
    ⟨before', more', hOther, hStart⟩
  rw [bytes_eq_utf8, length_utf8] at hStop
  exact parseAt_eq_ok_iff.mpr
    ⟨before', used, more', hOther, hStart, rfl, hRoom, hStop, hCuts⟩

theorem lt_of_parseAt
    {text : String}
    {start stop next : Nat}
    {erased : Bool}
    {t : Ty}
    (hRead : Ty.parseAt text start stop erased = .ok (t, next)) :
    start < next ∧ next ≤ stop ∧ stop ≤ (bytes text).length := by
  rcases parseAt_eq_ok_iff.mp hRead with
    ⟨before, used, more, -, -, rfl, hNext, hStop, hCuts⟩
  have hPos := byteCount_pos hCuts.closed.ne_nil
  rw [bytes_eq_utf8, length_utf8]
  exact ⟨by omega, hNext, hStop⟩

/- No loop reads one type after another without an end. -/
theorem wellFounded_parseAt
    (text : String)
    (stop : Nat)
    (erased : Bool) :
    WellFounded fun next cursor =>
      ∃ t, Ty.parseAt text cursor stop erased = .ok (t, next) := by
  refine Subrelation.wf ?_
    (measure fun cursor : Nat => stop - cursor).wf
  rintro next cursor ⟨t, hRead⟩
  have hBounds := lt_of_parseAt hRead
  change stop - next < stop - cursor
  omega

/-
  A type is read from the bytes that it takes, and it takes at
  least one: where the same bytes stand in a text, the same type
  is read from as many of them, whatever stands around them.  So
  a loop that reads one type after another ends, and no number
  of calls ends an argument list, a parameter list or a type
  before its characters do.
-/
theorem parseAt_local
    (erased : Bool) :
    (∀ text start stop t next,
      Ty.parseAt text start stop erased = .ok (t, next) →
      (start < next ∧ next ≤ stop ∧ stop ≤ (bytes text).length) ∧
      ∀ other start' stop',
        ((bytes other).drop start').take (next - start) =
          ((bytes text).drop start).take (next - start) →
        start' + (next - start) ≤ stop' →
        stop' ≤ (bytes other).length →
        Ty.parseAt other start' stop' erased =
          .ok (t, start' + (next - start))) ∧
      (∀ text stop, WellFounded fun next cursor =>
        ∃ t, Ty.parseAt text cursor stop erased = .ok (t, next)) ∧
      (∀ n cs, 2 * cs.length < n →
        Parser.ty n erased cs = Parser.run erased cs) ∧
      (∀ n whole cs, 2 * cs.length + 1 < n →
        Parser.arguments n whole cs =
          Parser.arguments (2 * cs.length + 2) whole cs) ∧
      ∀ n whole cs, cs.length < n →
        Parser.parameters n whole cs =
          Parser.parameters (cs.length + 1) whole cs := by
  refine ⟨?_, ?_, ?_, ?_, ?_⟩
  · intro text start stop t next hRead
    exact ⟨lt_of_parseAt hRead, fun other start' stop' hBytes hRoom
      hStop => parseAt_of_bytes hRead hBytes hRoom hStop⟩
  · exact fun text stop => wellFounded_parseAt text stop erased
  · exact fun n cs hEnough => Parser.ty_eq_run erased hEnough
  · exact fun n whole cs hEnough => Parser.arguments_eq whole hEnough
  · exact fun n whole cs hEnough => Parser.parameters_eq whole hEnough

/- A class is read between other types, so also on its own. -/
theorem parseAt_local_alone :
    Ty.parseAt "ILa;[J" 1 6 true =
        .ok (.object (.top "a" []), 4) ∧
      Ty.parseAt "La;" 0 3 true =
        .ok (.object (.top "a" []), 3) := by
  have hRun : Parser.run true ['L', 'a', ';'] =
      .ok (.object (.top "a" []), []) := rfl
  rcases Parser.ty_cuts hRun with ⟨used, hUsed, hCuts⟩
  rw [List.append_nil] at hUsed
  subst hUsed
  have hRead : Ty.parseAt "ILa;[J" 1 6 true =
      .ok (.object (.top "a" []), 4) :=
    parseAt_eq_ok_iff.mpr ⟨['I'], ['L', 'a', ';'], ['[', 'J'], rfl,
      rfl, rfl, by decide, by decide, hCuts⟩
  have hBytes : ((bytes "La;").drop 0).take (4 - 1) =
      ((bytes "ILa;[J").drop 1).take (4 - 1) := by decide +kernel
  have hLength : (bytes "La;").length = 3 := by decide +kernel
  have hAlone := ((parseAt_local true).1 _ _ _ _ _ hRead).2
    "La;" 0 3 hBytes (Nat.le_refl _) (Nat.le_of_eq hLength.symm)
  exact ⟨hRead, hAlone⟩

end Ty

end Jvm

end Stratagem
