import Stratagem.Proofs.Jvm.Codec

/-
  What becomes of a text that is read and printed.

  Reading forgets nothing: the text can be spelled again from
  the type.  Printing does forget, in one place.  A static
  class is written behind the bare name of what encloses it,
  although arguments may be read there.  So a text is printed
  again exactly when none of its static classes stands in a
  class with arguments.

  Key definitions include:
    * `Jvm.Ty.spelling`
    * `Jvm.Ty.KeepsArguments`

  Main declarations:
    * `Jvm.Parser.ty_spelled`
    * `Jvm.Ty.renderSignature_eq_spelling_iff`
    * `Jvm.Ty.printed_again_iff`
    * `Jvm.Ty.genericOuter_loses_arguments`
-/

namespace Stratagem

namespace Jvm

------------------------------------------------------------
-- Spelling
------------------------------------------------------------

mutual

/- A type with the arguments of all its classes. -/
def Ty.spelling : Ty → List Char
  | .primitive p => [p.letter]
  | .array t => '[' :: Ty.spelling t
  | .object c => 'L' :: ClassTy.spelling c ++ [';']
  | .variable x => 'T' :: x.toList ++ [';']
  | .argument a => ArgTy.spelling a

def ClassTy.spelling : ClassTy → List Char
  | .top n ts => n.toList ++ spellArgs ts
  | .inner o n ts =>
      ClassTy.spelling o ++ '.' :: n.toList ++ spellArgs ts
  | .nested o n ts =>
      ClassTy.spelling o ++ '$' :: n.toList ++ spellArgs ts

def ArgTy.spelling : ArgTy → List Char
  | .invariant t => Ty.spelling t
  | .covariant t => '+' :: Ty.spelling t
  | .contravariant t => '-' :: Ty.spelling t
  | .wildcard => ['*']

def spellArgs : List Ty → List Char
  | [] => []
  | t :: ts => '<' :: Ty.spelling t ++ spellMoreArgs ts

def spellMoreArgs : List Ty → List Char
  | [] => ['>']
  | t :: ts => Ty.spelling t ++ spellMoreArgs ts

end

@[simp] theorem spelling_asArgument
    (t : Ty) :
    (Parser.asArgument t).spelling = t.spelling := by
  cases t with
  | argument a => rfl
  | _ => simp [Parser.asArgument, Ty.spelling, ArgTy.spelling]

/- The opening bracket stands before all arguments. -/
theorem spellArgs_of_ne_nil
    {ts : List Ty}
    (hSome : ts ≠ []) :
    spellArgs ts = '<' :: spellMoreArgs ts := by
  cases ts with
  | nil => exact absurd rfl hSome
  | cons t ts => rw [spellArgs, spellMoreArgs, List.cons_append]

------------------------------------------------------------
-- Reading Forgets Nothing
------------------------------------------------------------

namespace Parser

theorem map_eq_ok
    {α β : Type}
    {x : Except Fault α}
    {f : α → β}
    {b : β} :
    x.map f = .ok b ↔ ∃ a, x = .ok a ∧ f a = b := by
  cases x with
  | error e => simp [Except.map]
  | ok a => simp [Except.map]

theorem letter_of_ofLetter?
    {c : Char}
    {p : Primitive}
    (hLetter : Primitive.ofLetter? c = some p) :
    p.letter = c := by
  have hFound := List.find?_some hLetter
  simpa using hFound

theorem variableTy_cases
    {whole cs rest : List Char}
    {t : Ty}
    (hRead : variableTy whole cs = .ok (t, rest)) :
    ∃ name, VariableName name ∧ t = .variable name ∧
      cs = name.toList ++ ';' :: rest := by
  unfold variableTy at hRead
  dsimp only at hRead
  have hSplit := List.takeWhile_append_dropWhile
    (p := (· != ';')) (l := cs)
  have hStop := List.head?_dropWhile_not (· != ';') cs
  split at hRead
  case h_1 c name d tail hName hTail =>
      rw [hTail] at hStop
      have hMark : d = ';' := by
        simpa using hStop
      rw [hTail, hMark] at hSplit
      simp only [Except.ok.injEq, Prod.mk.injEq] at hRead
      rcases hRead with ⟨rfl, rfl⟩
      refine ⟨_, ⟨?_, ?_⟩, rfl, ?_⟩
      · simp [hName]
      · rw [String.toList_ofList]
        intro hIn
        simpa using List.all_eq_true.mp List.all_takeWhile _ hIn
      · rw [String.toList_ofList, hSplit]
  case h_2 => cases hRead

/- The first character tells what was read. -/
theorem ty_cases
    {n : Nat}
    {erased : Bool}
    {c : Char}
    {cs rest : List Char}
    {t : Ty}
    (hRead : ty (n + 1) erased (c :: cs) = .ok (t, rest)) :
    (∃ p, c = p.letter ∧ t = .primitive p ∧ rest = cs) ∨
    (c = '[' ∧ ∃ u, t = .array u ∧ ty n erased cs = .ok (u, rest)) ∨
    (c = 'L' ∧ ∃ o, t = .object o ∧
      segments n erased (c :: cs) .top cs = .ok (o, rest)) ∨
    (c = 'T' ∧ variableTy (c :: cs) cs = .ok (t, rest)) ∨
    (c = '*' ∧ t = .argument .wildcard ∧ rest = cs) ∨
    (c = '+' ∧ ∃ u, t = .argument (.covariant u) ∧
      ty n false cs = .ok (u, rest)) ∨
    (c = '-' ∧ ∃ u, t = .argument (.contravariant u) ∧
      ty n false cs = .ok (u, rest)) := by
  rw [ty] at hRead
  split at hRead
  case h_1 p hLetter =>
      cases hRead
      exact Or.inl ⟨p, (letter_of_ofLetter? hLetter).symm, rfl, rfl⟩
  case h_2 =>
      by_cases hArray : c = '['
      · rw [if_pos hArray] at hRead
        split at hRead
        case isTrue => cases hRead
        case isFalse =>
            rcases map_eq_ok.mp hRead with ⟨⟨u, more⟩, hElement, hSame⟩
            cases hSame
            exact Or.inr (Or.inl ⟨hArray, u, rfl, hElement⟩)
      rw [if_neg hArray] at hRead
      by_cases hClass : c = 'L'
      · rw [if_pos hClass] at hRead
        rcases map_eq_ok.mp hRead with ⟨⟨o, more⟩, hChain, hSame⟩
        cases hSame
        exact Or.inr (Or.inr (Or.inl ⟨hClass, o, rfl, hChain⟩))
      rw [if_neg hClass] at hRead
      by_cases hMethod : c = '('
      · rw [if_pos hMethod] at hRead
        cases hRead
      rw [if_neg hMethod] at hRead
      by_cases hSign : c = 'T' ∨ c = '+' ∨ c = '-' ∨ c = '*'
      · rw [if_pos hSign] at hRead
        by_cases hErased : erased = true
        · rw [if_pos hErased] at hRead
          cases hRead
        rw [if_neg hErased] at hRead
        by_cases hVariable : c = 'T'
        · rw [if_pos hVariable] at hRead
          exact Or.inr (Or.inr (Or.inr (Or.inl ⟨hVariable, hRead⟩)))
        rw [if_neg hVariable] at hRead
        by_cases hWild : c = '*'
        · rw [if_pos hWild] at hRead
          cases hRead
          exact Or.inr (Or.inr (Or.inr (Or.inr
            (Or.inl ⟨hWild, rfl, rfl⟩))))
        rw [if_neg hWild] at hRead
        by_cases hBound : startsBound cs = true
        · rw [if_pos hBound] at hRead
          rcases map_eq_ok.mp hRead with ⟨⟨u, more⟩, hInner, hSame⟩
          cases hSame
          by_cases hPlus : c = '+'
          · rw [if_pos hPlus]
            exact Or.inr (Or.inr (Or.inr (Or.inr (Or.inr
              (Or.inl ⟨hPlus, u, rfl, hInner⟩)))))
          · have hMinus : c = '-' := by
              simpa [hVariable, hPlus, hWild] using hSign
            rw [if_neg hPlus]
            exact Or.inr (Or.inr (Or.inr (Or.inr (Or.inr
              (Or.inr ⟨hMinus, u, rfl, hInner⟩)))))
        · rw [if_neg hBound] at hRead
          cases hRead
      · rw [if_neg hSign] at hRead
        cases hRead

/-
  Variables and arguments are not read from an erased text, and
  behind the sign of a bounded argument there is a bound.
-/
theorem sign_of_ty
    {n : Nat}
    {erased : Bool}
    {c : Char}
    {cs rest : List Char}
    {t : Ty}
    (hSign : c ∈ ['T', '*', '+', '-'])
    (hRead : ty (n + 1) erased (c :: cs) = .ok (t, rest)) :
    erased = false ∧
      (c = '+' ∨ c = '-' → startsBound cs = true) := by
  have hPlain : erased = false := by
    cases erased with
    | false => rfl
    | true =>
        simp only [List.mem_cons, List.not_mem_nil, or_false]
          at hSign
        rcases hSign with rfl | rfl | rfl | rfl <;>
          rw [ty] at hRead <;> cases hRead
  refine ⟨hPlain, fun hBounded => ?_⟩
  by_contra hNone
  subst hPlain
  rw [Bool.not_eq_true] at hNone
  rcases hBounded with rfl | rfl <;>
    · rw [ty, hNone] at hRead
      cases hRead

theorem argsOf_cases
    {n : Nat}
    {erased : Bool}
    {whole cs more : List Char}
    {args : List Ty}
    (hRead : argsOf n erased whole cs = .ok (args, more)) :
    args = [] ∧ cs = more ∨
      erased = false ∧ ∃ inside, cs = '<' :: inside ∧
        arguments n whole inside = .ok (args, more) := by
  unfold argsOf at hRead
  split at hRead
  case h_1 inside =>
      cases erased with
      | true => cases hRead
      | false => exact .inr ⟨rfl, inside, rfl, hRead⟩
  case h_2 =>
      cases hRead
      exact .inl ⟨rfl, rfl⟩

/-
  One class of a chain was read: its name, perhaps arguments,
  and what the mark behind them asks for.
-/
theorem segments_cases
    {n : Nat}
    {erased : Bool}
    {whole cs rest : List Char}
    {make : String → List Ty → ClassTy}
    {o : ClassTy}
    (hRead : segments (n + 1) erased whole make cs = .ok (o, rest)) :
    ∃ name args more, SegmentName name ∧
      (args = [] ∧ cs = name.toList ++ more ∨
        erased = false ∧ ∃ inside, cs = name.toList ++ '<' :: inside ∧
          arguments n whole inside = .ok (args, more)) ∧
      goOn n erased whole (make name args) more = .ok (o, rest) := by
  have hWhole := List.takeWhile_append_dropWhile
    (p := (!endsName ·)) (l := cs)
  have hFree : ∀ c ∈ cs.takeWhile (!endsName ·),
      endsName c = false := by
    intro c hIn
    simpa using List.all_eq_true.mp List.all_takeWhile c hIn
  rw [segments_eq] at hRead
  split at hRead
  case isTrue => cases hRead
  case isFalse hSome =>
      have hName :
          SegmentName (String.ofList (cs.takeWhile (!endsName ·))) := by
        refine ⟨by simpa using hSome, fun c hIn => ?_⟩
        rw [String.toList_ofList] at hIn
        simpa [endsName, not_or, and_assoc] using hFree c hIn
      rcases ok_bind.mp hRead with ⟨⟨args, more⟩, hArgs, hNext⟩
      refine ⟨_, args, more, hName, ?_, hNext⟩
      rw [String.toList_ofList]
      rcases argsOf_cases hArgs with
        ⟨hNone, hRest⟩ | ⟨hPlain, inside, hOpen, hInside⟩
      · exact .inl ⟨hNone, hRest ▸ hWhole.symm⟩
      · exact .inr ⟨hPlain, inside, hOpen ▸ hWhole.symm, hInside⟩

theorem goOn_cases
    {n : Nat}
    {erased : Bool}
    {whole cs rest : List Char}
    {made o : ClassTy}
    (hRead : goOn n erased whole made cs = .ok (o, rest)) :
    (cs = ';' :: rest ∧ o = made) ∨
    (∃ more, cs = '.' :: more ∧
      segments n erased whole (.inner made) more = .ok (o, rest)) ∨
    (∃ more, cs = '$' :: more ∧
      segments n erased whole (.nested made) more = .ok (o, rest)) := by
  unfold goOn at hRead
  split at hRead
  case h_1 more =>
      cases hRead
      exact Or.inl ⟨rfl, rfl⟩
  case h_2 more => exact Or.inr (Or.inl ⟨more, rfl, hRead⟩)
  case h_3 more => exact Or.inr (Or.inr ⟨more, rfl, hRead⟩)
  case h_4 => cases hRead

/- One argument was read, and it was the last one or not. -/
theorem arguments_cases
    {n : Nat}
    {whole cs rest : List Char}
    {ts : List Ty}
    (hRead : arguments (n + 1) whole cs = .ok (ts, rest)) :
    ∃ t us more, ts = asArgument t :: us ∧
      ty n false cs = .ok (t, more) ∧
      (us = [] ∧ more = '>' :: rest ∨
        arguments n whole more = .ok (us, rest)) := by
  rw [arguments.eq_def] at hRead
  dsimp only at hRead
  split at hRead
  case h_1 => cases hRead
  case h_2 => cases hRead
  case h_3 =>
      rcases ok_bind.mp hRead with ⟨⟨t, more⟩, hFirst, hNext⟩
      dsimp only at hNext
      split at hNext
      case h_1 more =>
          cases hNext
          exact ⟨t, [], _, rfl, hFirst, Or.inl ⟨rfl, rfl⟩⟩
      case h_2 =>
          rcases ok_bind.mp hNext with ⟨⟨us, last⟩, hRest, hSame⟩
          cases hSame
          exact ⟨t, us, more, rfl, hFirst, Or.inr hRest⟩

mutual

/- What is read, and what is left of it, make up the text. -/
theorem ty_spelled
    {n : Nat}
    {erased : Bool}
    {cs rest : List Char}
    {t : Ty}
    (hRead : ty n erased cs = .ok (t, rest)) :
    cs = t.spelling ++ rest := by
  match n, cs with
  | 0, cs =>
      rw [ty] at hRead
      cases hRead
  | n + 1, [] =>
      rw [ty] at hRead
      cases hRead
  | n + 1, c :: cs =>
      rcases ty_cases hRead with
        ⟨p, rfl, rfl, rfl⟩ | ⟨rfl, u, rfl, hInner⟩ |
        ⟨rfl, o, rfl, hChain⟩ | ⟨rfl, hVariable⟩ |
        ⟨rfl, rfl, rfl⟩ | ⟨rfl, u, rfl, hInner⟩ |
        ⟨rfl, u, rfl, hInner⟩
      · rw [Ty.spelling, List.singleton_append]
      · rw [ty_spelled hInner, Ty.spelling, List.cons_append]
      · have hSpelled := segments_spelled []
          (fun name args => ClassTy.spelling.eq_1 name args) hChain
        rw [List.nil_append] at hSpelled
        simp [hSpelled, Ty.spelling]
      · rcases variableTy_cases hVariable with ⟨name, -, rfl, rfl⟩
        simp [Ty.spelling]
      · rw [Ty.spelling, ArgTy.spelling, List.singleton_append]
      · rw [ty_spelled hInner, Ty.spelling, ArgTy.spelling,
          List.cons_append]
      · rw [ty_spelled hInner, Ty.spelling, ArgTy.spelling,
          List.cons_append]

/-
  `before` is the text of what encloses the next class, the
  mark behind it included.
-/
theorem segments_spelled
    {n : Nat}
    {erased : Bool}
    {whole cs rest : List Char}
    {make : String → List Ty → ClassTy}
    {o : ClassTy}
    (before : List Char)
    (hMake : ∀ name args, (make name args).spelling =
      before ++ name.toList ++ spellArgs args)
    (hRead : segments n erased whole make cs = .ok (o, rest)) :
    before ++ cs = o.spelling ++ ';' :: rest := by
  match n with
  | 0 =>
      rw [segments] at hRead
      cases hRead
  | n + 1 =>
      rcases segments_cases hRead with
        ⟨name, args, more, -, hArgs, hNext⟩
      have hClass : before ++ cs =
          (make name args).spelling ++ more := by
        rw [hMake]
        rcases hArgs with ⟨rfl, hText⟩ | ⟨-, inside, hText, hInside⟩
        · rw [hText, spellArgs, List.append_nil, List.append_assoc]
        · rcases arguments_spelled hInside with ⟨hSome, hSpelled⟩
          rw [hText, spellArgs_of_ne_nil hSome, hSpelled]
          simp
      rw [hClass]
      rcases goOn_cases hNext with
        ⟨rfl, rfl⟩ | ⟨tail, rfl, hTail⟩ | ⟨tail, rfl, hTail⟩
      · rfl
      · have hSpelled := segments_spelled
          ((make name args).spelling ++ ['.'])
          (fun inner args => by simp [ClassTy.spelling]) hTail
        rw [← hSpelled, List.append_assoc, List.singleton_append]
      · have hSpelled := segments_spelled
          ((make name args).spelling ++ ['$'])
          (fun inner args => by simp [ClassTy.spelling]) hTail
        rw [← hSpelled, List.append_assoc, List.singleton_append]

theorem arguments_spelled
    {n : Nat}
    {whole cs rest : List Char}
    {ts : List Ty}
    (hRead : arguments n whole cs = .ok (ts, rest)) :
    ts ≠ [] ∧ cs = spellMoreArgs ts ++ rest := by
  match n with
  | 0 =>
      rw [arguments] at hRead
      cases hRead
  | n + 1 =>
      rcases arguments_cases hRead with
        ⟨t, us, more, rfl, hFirst, hMore⟩
      refine ⟨List.cons_ne_nil _ _, ?_⟩
      rw [ty_spelled hFirst, spellMoreArgs, spelling_asArgument,
        List.append_assoc]
      rcases hMore with ⟨rfl, rfl⟩ | hRest
      · rw [spellMoreArgs, List.singleton_append]
      · rw [(arguments_spelled hRest).2]

end

end Parser

------------------------------------------------------------
-- Printing Forgets Some Arguments
------------------------------------------------------------

mutual

/- No static class stands in a class with arguments. -/
def Ty.KeepsArguments : Ty → Prop
  | .primitive _ => True
  | .array t => Ty.KeepsArguments t
  | .object c => ClassTy.KeepsArguments c
  | .variable _ => True
  | .argument a => ArgTy.KeepsArguments a

def ClassTy.KeepsArguments : ClassTy → Prop
  | .top _ ts => KeepArguments ts
  | .inner o _ ts => ClassTy.KeepsArguments o ∧ KeepArguments ts
  | .nested o _ ts => o.bare = o ∧ KeepArguments ts

def ArgTy.KeepsArguments : ArgTy → Prop
  | .invariant t => Ty.KeepsArguments t
  | .covariant t => Ty.KeepsArguments t
  | .contravariant t => Ty.KeepsArguments t
  | .wildcard => True

def KeepArguments : List Ty → Prop
  | [] => True
  | t :: ts => Ty.KeepsArguments t ∧ KeepArguments ts

end

/- A chain is spelled by its name only if it has no arguments. -/
theorem ClassTy.length_renderName_le_spelling
    (c : ClassTy) :
    c.renderName.length ≤ c.spelling.length ∧
      (c.renderName.length = c.spelling.length → c.bare = c) := by
  have hArgs : ∀ ts : List Ty, (spellArgs ts).length = 0 → ts = [] := by
    intro ts hNone
    by_cases hSome : ts = []
    · exact hSome
    · rw [spellArgs_of_ne_nil hSome, List.length_cons] at hNone
      omega
  cases c with
  | top n ts =>
      simp only [renderName, spelling, bare, List.length_append]
      refine ⟨by omega, ?_⟩
      intro hSame
      rw [hArgs ts (by omega)]
  | inner o n ts =>
      rcases length_renderName_le_spelling o with ⟨hLe, hBare⟩
      simp only [renderName, spelling, bare, List.length_append,
        List.length_cons]
      refine ⟨by omega, ?_⟩
      intro hSame
      rw [hArgs ts (by omega), hBare (by omega)]
  | nested o n ts =>
      rcases length_renderName_le_spelling o with ⟨hLe, hBare⟩
      simp only [renderName, spelling, bare, List.length_append,
        List.length_cons]
      refine ⟨by omega, ?_⟩
      intro hSame
      rw [hArgs ts (by omega), hBare (by omega)]

mutual

/-
  What is printed is never longer than what was spelled, and
  as long only if no arguments were lost.
-/
theorem Ty.length_renderSignature_le_spelling
    (t : Ty) :
    t.renderSignature.length ≤ t.spelling.length ∧
      (t.renderSignature.length = t.spelling.length →
        t.KeepsArguments) := by
  match t with
  | .primitive p =>
      simp [Ty.renderSignature, Ty.spelling, Ty.KeepsArguments]
  | .array t =>
      have hInner := Ty.length_renderSignature_le_spelling t
      simpa [Ty.renderSignature, Ty.spelling,
        Ty.KeepsArguments] using hInner
  | .object c =>
      have hInner := ClassTy.length_renderSignature_le_spelling c
      simpa [Ty.renderSignature, Ty.spelling,
        Ty.KeepsArguments] using hInner
  | .variable x =>
      simp [Ty.renderSignature, Ty.spelling, Ty.KeepsArguments]
  | .argument a =>
      have hInner := ArgTy.length_renderSignature_le_spelling a
      simpa [Ty.renderSignature, Ty.spelling,
        Ty.KeepsArguments] using hInner

theorem ClassTy.length_renderSignature_le_spelling
    (c : ClassTy) :
    c.renderSignature.length ≤ c.spelling.length ∧
      (c.renderSignature.length = c.spelling.length →
        c.KeepsArguments) := by
  match c with
  | .top n ts =>
      rcases length_renderArgs_le_spelling ts with ⟨hLe, hKeeps⟩
      simp only [ClassTy.renderSignature, ClassTy.spelling,
        List.length_append]
      refine ⟨by omega, ?_⟩
      intro hSame
      exact hKeeps (by omega)
  | .inner o n ts =>
      rcases ClassTy.length_renderSignature_le_spelling o with
        ⟨hOuterLe, hOuter⟩
      rcases length_renderArgs_le_spelling ts with ⟨hLe, hKeeps⟩
      simp only [ClassTy.renderSignature, ClassTy.spelling,
        List.length_append, List.length_cons]
      refine ⟨by omega, ?_⟩
      intro hSame
      exact ⟨hOuter (by omega), hKeeps (by omega)⟩
  | .nested o n ts =>
      rcases o.length_renderName_le_spelling with
        ⟨hOuterLe, hOuter⟩
      rcases length_renderArgs_le_spelling ts with ⟨hLe, hKeeps⟩
      simp only [ClassTy.renderSignature, ClassTy.spelling,
        List.length_append, List.length_cons]
      refine ⟨by omega, ?_⟩
      intro hSame
      exact ⟨hOuter (by omega), hKeeps (by omega)⟩

theorem ArgTy.length_renderSignature_le_spelling
    (a : ArgTy) :
    a.renderSignature.length ≤ a.spelling.length ∧
      (a.renderSignature.length = a.spelling.length →
        a.KeepsArguments) := by
  match a with
  | .invariant t =>
      have hInner := Ty.length_renderSignature_le_spelling t
      simpa [ArgTy.renderSignature, ArgTy.spelling,
        ArgTy.KeepsArguments] using hInner
  | .covariant t =>
      have hInner := Ty.length_renderSignature_le_spelling t
      simpa [ArgTy.renderSignature, ArgTy.spelling,
        ArgTy.KeepsArguments] using hInner
  | .contravariant t =>
      have hInner := Ty.length_renderSignature_le_spelling t
      simpa [ArgTy.renderSignature, ArgTy.spelling,
        ArgTy.KeepsArguments] using hInner
  | .wildcard =>
      simp [ArgTy.renderSignature, ArgTy.spelling,
        ArgTy.KeepsArguments]

theorem length_renderArgs_le_spelling
    (ts : List Ty) :
    (renderArgs ts).length ≤ (spellArgs ts).length ∧
      ((renderArgs ts).length = (spellArgs ts).length →
        KeepArguments ts) := by
  match ts with
  | [] => simp [renderArgs, spellArgs, KeepArguments]
  | t :: ts =>
      rcases Ty.length_renderSignature_le_spelling t with
        ⟨hFirstLe, hFirst⟩
      rcases length_renderMoreArgs_le_spelling ts with
        ⟨hLe, hKeeps⟩
      simp only [renderArgs, spellArgs, List.length_append,
        List.length_cons]
      refine ⟨by omega, ?_⟩
      intro hSame
      exact ⟨hFirst (by omega), hKeeps (by omega)⟩

theorem length_renderMoreArgs_le_spelling
    (ts : List Ty) :
    (renderMoreArgs ts).length ≤ (spellMoreArgs ts).length ∧
      ((renderMoreArgs ts).length = (spellMoreArgs ts).length →
        KeepArguments ts) := by
  match ts with
  | [] => simp [renderMoreArgs, spellMoreArgs, KeepArguments]
  | t :: ts =>
      rcases Ty.length_renderSignature_le_spelling t with
        ⟨hFirstLe, hFirst⟩
      rcases length_renderMoreArgs_le_spelling ts with
        ⟨hLe, hKeeps⟩
      simp only [renderMoreArgs, spellMoreArgs, List.length_append]
      refine ⟨by omega, ?_⟩
      intro hSame
      exact ⟨hFirst (by omega), hKeeps (by omega)⟩

end

theorem ClassTy.spelling_of_bare
    (c : ClassTy)
    (hBare : c.bare = c) :
    c.spelling = c.renderName := by
  match c with
  | .top n ts =>
      rw [bare, ClassTy.top.injEq] at hBare
      rw [← hBare.2, spelling, renderName, spellArgs,
        List.append_nil]
  | .inner o n ts =>
      rw [bare, ClassTy.inner.injEq] at hBare
      rw [← hBare.2.2, spelling, renderName, spellArgs,
        List.append_nil, spelling_of_bare o hBare.1]
  | .nested o n ts =>
      rw [bare, ClassTy.nested.injEq] at hBare
      rw [← hBare.2.2, spelling, renderName, spellArgs,
        List.append_nil, spelling_of_bare o hBare.1]

mutual

theorem Ty.renderSignature_of_keepsArguments
    (t : Ty)
    (hKeeps : t.KeepsArguments) :
    t.renderSignature = t.spelling := by
  match t with
  | .primitive p => rw [Ty.renderSignature, Ty.spelling]
  | .array t =>
      rw [Ty.renderSignature, Ty.spelling,
        Ty.renderSignature_of_keepsArguments t hKeeps]
  | .object c =>
      rw [Ty.renderSignature, Ty.spelling,
        ClassTy.renderSignature_of_keepsArguments c hKeeps]
  | .variable x => rw [Ty.renderSignature, Ty.spelling]
  | .argument a =>
      rw [Ty.renderSignature, Ty.spelling,
        ArgTy.renderSignature_of_keepsArguments a hKeeps]

theorem ClassTy.renderSignature_of_keepsArguments
    (c : ClassTy)
    (hKeeps : c.KeepsArguments) :
    c.renderSignature = c.spelling := by
  match c with
  | .top n ts =>
      rw [ClassTy.renderSignature, ClassTy.spelling,
        renderArgs_of_keepArguments ts hKeeps]
  | .inner o n ts =>
      rw [ClassTy.renderSignature, ClassTy.spelling,
        ClassTy.renderSignature_of_keepsArguments o hKeeps.1,
        renderArgs_of_keepArguments ts hKeeps.2]
  | .nested o n ts =>
      rw [ClassTy.renderSignature, ClassTy.spelling,
        o.spelling_of_bare hKeeps.1,
        renderArgs_of_keepArguments ts hKeeps.2]

theorem ArgTy.renderSignature_of_keepsArguments
    (a : ArgTy)
    (hKeeps : a.KeepsArguments) :
    a.renderSignature = a.spelling := by
  match a with
  | .invariant t =>
      rw [ArgTy.renderSignature, ArgTy.spelling,
        Ty.renderSignature_of_keepsArguments t hKeeps]
  | .covariant t =>
      rw [ArgTy.renderSignature, ArgTy.spelling,
        Ty.renderSignature_of_keepsArguments t hKeeps]
  | .contravariant t =>
      rw [ArgTy.renderSignature, ArgTy.spelling,
        Ty.renderSignature_of_keepsArguments t hKeeps]
  | .wildcard => rw [ArgTy.renderSignature, ArgTy.spelling]

theorem renderArgs_of_keepArguments
    (ts : List Ty)
    (hKeep : KeepArguments ts) :
    renderArgs ts = spellArgs ts := by
  match ts with
  | [] => rw [renderArgs, spellArgs]
  | t :: ts =>
      rw [renderArgs, spellArgs,
        Ty.renderSignature_of_keepsArguments t hKeep.1,
        renderMoreArgs_of_keepArguments ts hKeep.2]

theorem renderMoreArgs_of_keepArguments
    (ts : List Ty)
    (hKeep : KeepArguments ts) :
    renderMoreArgs ts = spellMoreArgs ts := by
  match ts with
  | [] => rw [renderMoreArgs, spellMoreArgs]
  | t :: ts =>
      rw [renderMoreArgs, spellMoreArgs,
        Ty.renderSignature_of_keepsArguments t hKeep.1,
        renderMoreArgs_of_keepArguments ts hKeep.2]

end

------------------------------------------------------------
-- Whole Texts
------------------------------------------------------------

namespace Ty

theorem renderSignature_eq_spelling_iff
    (t : Ty) :
    t.renderSignature = t.spelling ↔ t.KeepsArguments := by
  constructor
  · intro hSame
    apply t.length_renderSignature_le_spelling.2
    rw [hSame]
  · exact t.renderSignature_of_keepsArguments

/- The text of a type can be spelled from the type alone. -/
theorem toList_of_ofSignature
    {s : String}
    {t : Ty}
    (hRead : Ty.ofSignature s = .ok t) :
    s.toList = t.spelling := by
  unfold Ty.ofSignature Ty.parse at hRead
  split at hRead
  case h_1 => cases hRead
  case h_2 =>
      split at hRead
      case h_1 => cases hRead
      case h_2 u hRun =>
          cases hRead
          have hSpelled := Parser.ty_spelled hRun
          rw [List.append_nil] at hSpelled
          exact hSpelled
      case h_3 => cases hRead

/- A type that was read prints as its text, or loses arguments. -/
theorem signature_eq_iff
    {s : String}
    {t : Ty}
    (hRead : Ty.ofSignature s = .ok t) :
    t.signature = s ↔ t.KeepsArguments := by
  rw [← renderSignature_eq_spelling_iff,
    ← toList_of_ofSignature hRead, signature, ← String.toList_inj,
    String.toList_ofList]

/-
  A text that is read is printed again as it was, and read
  again as the same type, exactly when no static class in it
  stands in a class with arguments.
-/
theorem printed_again_iff
    (s : String)
    (t : Ty)
    (hRead : Ty.ofSignature s = .ok t) :
    (t.signature = s ↔ t.KeepsArguments) ∧
      (Ty.ofSignature t.signature = .ok t ↔ t.KeepsArguments) := by
  refine ⟨signature_eq_iff hRead, ?_⟩
  constructor
  · intro hAgain
    exact (signature_eq_iff hAgain).mp rfl
  · intro hKeeps
    rw [(signature_eq_iff hRead).mpr hKeeps]
    exact hRead

/- An inner class of a static one; both have arguments. -/
def staticThenInner : Ty :=
  .object (.inner
    (.nested (.top "org/example/TestClass" []) "S"
      [.argument (.invariant (.variable "X"))])
    "N" [.argument (.invariant (.variable "V"))])

theorem staticThenInner_printed_again :
    Ty.ofSignature "Lorg/example/TestClass$S<TX;>.N<TV;>;" =
        .ok staticThenInner ∧
      staticThenInner.KeepsArguments ∧
      staticThenInner.signature =
        "Lorg/example/TestClass$S<TX;>.N<TV;>;" ∧
      Ty.ofSignature staticThenInner.signature =
        .ok staticThenInner := by
  have hRead :
      Ty.ofSignature "Lorg/example/TestClass$S<TX;>.N<TV;>;" =
        .ok staticThenInner := rfl
  have hKeeps : staticThenInner.KeepsArguments :=
    ⟨⟨rfl, trivial, trivial⟩, trivial, trivial⟩
  rcases printed_again_iff _ staticThenInner hRead with
    ⟨hPrinted, hAgain⟩
  exact ⟨hRead, hKeeps, hPrinted.mpr hKeeps, hAgain.mpr hKeeps⟩

/- A static class in a class with an argument. -/
def genericOuter : Ty :=
  .object (.nested
    (.top "a" [.argument (.invariant (.variable "T"))]) "b" [])

/- The argument of the outer class is read and never printed. -/
theorem genericOuter_loses_arguments :
    ¬ ∀ s t, Ty.ofSignature s = .ok t →
      t.signature = s ∧ Ty.ofSignature t.signature = .ok t := by
  intro hAlways
  have hRead : Ty.ofSignature "La<TT;>$b;" = .ok genericOuter := rfl
  have hPrinted : genericOuter.signature = "La$b;" := rfl
  have hKept := (hAlways _ genericOuter hRead).1
  rw [hPrinted] at hKept
  exact absurd hKept (by decide)

end Ty

end Jvm

end Stratagem
