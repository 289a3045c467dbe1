import Stratagem.Proofs.Jvm.Descriptor

/-
  Types that are printed can be read again.

  The type that is read need not be the one that was printed:
  what stands between angle brackets is read as an argument,
  and a static class forgets the arguments of the classes
  around it.  Both print in the same way.

  Key definitions include:
    * `Jvm.Ty.Printable`
    * `Jvm.Ty.reread`
    * `Jvm.Ty.erasure`
    * `Jvm.Parser.goOn`
    * `Jvm.Parser.argsOf`

  Main declarations:
    * `Jvm.Parser.ty_reads`
    * `Jvm.Ty.parse_signature`
    * `Jvm.Ty.signature_roundTrip`
-/

namespace Stratagem

namespace Jvm

------------------------------------------------------------
-- Printable Types
------------------------------------------------------------

/- A name of a class in a chain: no mark of the format in it. -/
def SegmentName
    (name : String) : Prop :=
  name ≠ "" ∧ ∀ c ∈ name.toList, c ∉ [';', '.', '$', '<', '>']

/- A name is checked character by character. -/
theorem SegmentName.of_all
    {name : String}
    (hSome : name ≠ "")
    (hAll : name.toList.all (fun c =>
      !([';', '.', '$', '<', '>'].contains c)) = true) :
    SegmentName name := by
  refine ⟨hSome, ?_⟩
  intro c hMember
  have hOther := List.all_eq_true.mp hAll c hMember
  rwa [Bool.not_eq_true', ← Bool.not_eq_true, List.contains_iff_mem]
    at hOther

/- A name of a type variable. -/
def VariableName
    (name : String) : Prop :=
  name ≠ "" ∧ ';' ∉ name.toList

/- A type that prints as a class, a variable or an array. -/
def Ty.BoundsArgument
    (t : Ty) : Prop :=
  ∃ c rest, t.renderSignature = c :: rest ∧ c ∈ ['L', 'T', '[']

mutual

/- All names in a type are legal, and so are its bounds. -/
def Ty.Printable : Ty → Prop
  | .primitive _ => True
  | .array t => Ty.Printable t
  | .object c => ClassTy.Printable c
  | .variable x => VariableName x
  | .argument a => ArgTy.Printable a

def ClassTy.Printable : ClassTy → Prop
  | .top n ts => SegmentName n ∧ PrintableTypes ts
  | .inner o n ts =>
      ClassTy.Printable o ∧ SegmentName n ∧ PrintableTypes ts
  | .nested o n ts =>
      ClassTy.Printable o ∧ SegmentName n ∧ PrintableTypes ts

def ArgTy.Printable : ArgTy → Prop
  | .invariant t => Ty.Printable t
  | .covariant t => t.BoundsArgument ∧ Ty.Printable t
  | .contravariant t => t.BoundsArgument ∧ Ty.Printable t
  | .wildcard => True

def PrintableTypes : List Ty → Prop
  | [] => True
  | t :: ts => Ty.Printable t ∧ PrintableTypes ts

end

------------------------------------------------------------
-- Types as They Are Read
------------------------------------------------------------

/- A chain of classes without arguments. -/
def ClassTy.bare : ClassTy → ClassTy
  | .top n _ => .top n []
  | .inner o n _ => .inner o.bare n []
  | .nested o n _ => .nested o.bare n []

mutual

/- What the printed form of a type is read as. -/
def Ty.reread : Ty → Ty
  | .primitive p => .primitive p
  | .array t => .array (Ty.reread t)
  | .object c => .object (ClassTy.reread c)
  | .variable x => .variable x
  | .argument a => ArgTy.reread a

def ClassTy.reread : ClassTy → ClassTy
  | .top n ts => .top n (rereadArgs ts)
  | .inner o n ts => .inner (ClassTy.reread o) n (rereadArgs ts)
  | .nested o n ts => .nested o.bare n (rereadArgs ts)

def ArgTy.reread : ArgTy → Ty
  | .invariant t => Ty.reread t
  | .covariant t => .argument (.covariant (Ty.reread t))
  | .contravariant t => .argument (.contravariant (Ty.reread t))
  | .wildcard => .argument .wildcard

def rereadArgs : List Ty → List Ty
  | [] => []
  | t :: ts => Parser.asArgument (Ty.reread t) :: rereadArgs ts

end

@[simp] theorem renderSignature_asArgument
    (t : Ty) :
    (Parser.asArgument t).renderSignature = t.renderSignature := by
  cases t with
  | argument a => rfl
  | _ =>
      simp [Parser.asArgument, Ty.renderSignature,
        ArgTy.renderSignature]

@[simp] theorem ClassTy.renderName_bare
    (c : ClassTy) :
    c.bare.renderName = c.renderName := by
  match c with
  | .top n ts => rfl
  | .inner o n ts =>
      simp [bare, renderName, ClassTy.renderName_bare o]
  | .nested o n ts =>
      simp [bare, renderName, ClassTy.renderName_bare o]

@[simp] theorem ClassTy.renderName_reread
    (c : ClassTy) :
    c.reread.renderName = c.renderName := by
  match c with
  | .top n ts => simp [reread, renderName]
  | .inner o n ts =>
      simp [reread, renderName, ClassTy.renderName_reread o]
  | .nested o n ts => simp [reread, renderName]

/- Without arguments, the full form is the name. -/
@[simp] theorem ClassTy.renderSignature_bare
    (c : ClassTy) :
    c.bare.renderSignature = c.renderName := by
  match c with
  | .top n ts =>
      simp [bare, renderName, renderSignature, renderArgs]
  | .inner o n ts =>
      simp [bare, renderName, renderSignature, renderArgs,
        ClassTy.renderSignature_bare o]
  | .nested o n ts =>
      simp [bare, renderName, renderSignature, renderArgs]

mutual

/- The type that is read prints in the same way. -/
@[simp] theorem Ty.renderSignature_reread
    (t : Ty) :
    t.reread.renderSignature = t.renderSignature := by
  match t with
  | .primitive p => simp [Ty.reread]
  | .array t =>
      simp [Ty.reread, Ty.renderSignature,
        Ty.renderSignature_reread t]
  | .object c =>
      simp [Ty.reread, Ty.renderSignature,
        ClassTy.renderSignature_reread c]
  | .variable x => simp [Ty.reread]
  | .argument a =>
      simp [Ty.reread, Ty.renderSignature,
        ArgTy.renderSignature_reread a]

theorem ClassTy.renderSignature_reread
    (c : ClassTy) :
    c.reread.renderSignature = c.renderSignature := by
  match c with
  | .top n ts =>
      simp [ClassTy.reread, ClassTy.renderSignature,
        renderArgs_reread ts]
  | .inner o n ts =>
      simp [ClassTy.reread, ClassTy.renderSignature,
        ClassTy.renderSignature_reread o, renderArgs_reread ts]
  | .nested o n ts =>
      simp [ClassTy.reread, ClassTy.renderSignature,
        renderArgs_reread ts]

theorem ArgTy.renderSignature_reread
    (a : ArgTy) :
    a.reread.renderSignature = a.renderSignature := by
  match a with
  | .invariant t =>
      simp [ArgTy.reread, ArgTy.renderSignature,
        Ty.renderSignature_reread t]
  | .covariant t =>
      simp [ArgTy.reread, ArgTy.renderSignature, Ty.renderSignature,
        Ty.renderSignature_reread t]
  | .contravariant t =>
      simp [ArgTy.reread, ArgTy.renderSignature, Ty.renderSignature,
        Ty.renderSignature_reread t]
  | .wildcard =>
      simp [ArgTy.reread, ArgTy.renderSignature, Ty.renderSignature]

theorem renderArgs_reread
    (ts : List Ty) :
    renderArgs (rereadArgs ts) = renderArgs ts := by
  match ts with
  | [] => rfl
  | t :: ts =>
      simp [rereadArgs, renderArgs, Ty.renderSignature_reread t,
        renderMoreArgs_reread ts]

theorem renderMoreArgs_reread
    (ts : List Ty) :
    renderMoreArgs (rereadArgs ts) = renderMoreArgs ts := by
  match ts with
  | [] => rfl
  | t :: ts =>
      simp [rereadArgs, renderMoreArgs, Ty.renderSignature_reread t,
        renderMoreArgs_reread ts]

end

theorem ClassTy.bare_bare
    (c : ClassTy) :
    c.bare.bare = c.bare := by
  match c with
  | .top n ts => rfl
  | .inner o n ts => simp [bare, bare_bare o]
  | .nested o n ts => simp [bare, bare_bare o]

/- The names of a class and of those around it are legal. -/
def ClassTy.Segmented : ClassTy → Prop
  | .top n _ => SegmentName n
  | .inner o n _ => o.Segmented ∧ SegmentName n
  | .nested o n _ => o.Segmented ∧ SegmentName n

/- All names that the descriptor of a type shows are legal. -/
def Ty.Segmented : Ty → Prop
  | .primitive _ => True
  | .array t => t.Segmented
  | .object c => c.Segmented
  | .variable _ => True
  | .argument _ => True

theorem ClassTy.Printable.segmented
    (c : ClassTy)
    (hPrintable : c.Printable) :
    c.Segmented := by
  match c with
  | .top n ts => exact hPrintable.1
  | .inner o n ts => exact ⟨segmented o hPrintable.1, hPrintable.2.1⟩
  | .nested o n ts => exact ⟨segmented o hPrintable.1, hPrintable.2.1⟩

theorem Ty.Printable.segmented
    (t : Ty)
    (hPrintable : t.Printable) :
    t.Segmented := by
  match t with
  | .primitive p => trivial
  | .array t => exact segmented t hPrintable
  | .object c => exact ClassTy.Printable.segmented c hPrintable
  | .variable x => trivial
  | .argument a => trivial

theorem ClassTy.Segmented.printable_bare
    (c : ClassTy)
    (hSegmented : c.Segmented) :
    c.bare.Printable := by
  match c with
  | .top n ts => exact ⟨hSegmented, trivial⟩
  | .inner o n ts =>
      exact ⟨printable_bare o hSegmented.1, hSegmented.2, trivial⟩
  | .nested o n ts =>
      exact ⟨printable_bare o hSegmented.1, hSegmented.2, trivial⟩

------------------------------------------------------------
-- Lengths
------------------------------------------------------------

/- How many classes a chain has. -/
def ClassTy.depth : ClassTy → Nat
  | .top _ _ => 1
  | .inner o _ _ => o.depth + 1
  | .nested o _ _ => o.depth + 1

theorem SegmentName.length_pos
    {name : String}
    (hName : SegmentName name) :
    0 < name.toList.length := by
  refine List.length_pos_iff.mpr ?_
  intro hEmpty
  exact hName.1 (String.toList_eq_nil_iff.mp hEmpty)

theorem SegmentName.isEmpty_eq_false
    {name : String}
    (hName : SegmentName name) :
    name.toList.isEmpty = false :=
  List.isEmpty_eq_false_iff.mpr
    (List.length_pos_iff.mp hName.length_pos)

/- Names and what separates them have no character in common. -/
theorem SegmentName.endsName_eq_false
    {name : String}
    (hName : SegmentName name) :
    ∀ c ∈ name.toList, Parser.endsName c = false := by
  intro c hIn
  simpa [Parser.endsName, not_or, and_assoc] using hName.2 c hIn

theorem ClassTy.depth_le_renderName
    (c : ClassTy)
    (hPrintable : c.Printable) :
    c.depth ≤ c.renderName.length := by
  match c with
  | .top n ts =>
      have hPos := hPrintable.1.length_pos
      simp only [depth, renderName]
      omega
  | .inner o n ts =>
      have hLe := ClassTy.depth_le_renderName o hPrintable.1
      simp only [depth, renderName, List.length_append,
        List.length_cons]
      omega
  | .nested o n ts =>
      have hLe := ClassTy.depth_le_renderName o hPrintable.1
      simp only [depth, renderName, List.length_append,
        List.length_cons]
      omega

theorem ClassTy.length_renderName_le
    (c : ClassTy) :
    c.renderName.length ≤ c.renderSignature.length := by
  match c with
  | .top n ts => simp [renderName, renderSignature]
  | .inner o n ts =>
      have hLe := ClassTy.length_renderName_le o
      simp only [renderName, renderSignature, List.length_append,
        List.length_cons]
      omega
  | .nested o n ts =>
      simp only [renderName, renderSignature, List.length_append,
        List.length_cons]
      omega

theorem renderMoreArgs_length_pos
    (ts : List Ty) :
    0 < (renderMoreArgs ts).length := by
  induction ts with
  | nil => simp [renderMoreArgs]
  | cons t ts ih =>
      rw [renderMoreArgs, List.length_append]
      omega

mutual

/- A printed type starts with a mark that closes nothing. -/
theorem Ty.renderSignature_starts
    (t : Ty) :
    ∃ c rest, t.renderSignature = c :: rest ∧ c ≠ '>' := by
  match t with
  | .primitive p =>
      refine ⟨p.letter, [], Ty.renderSignature.eq_1 p, ?_⟩
      cases p <;> decide
  | .array t =>
      exact ⟨'[', _, Ty.renderSignature.eq_2 t, by decide⟩
  | .object c =>
      exact ⟨'L', _, Ty.renderSignature.eq_3 c, by decide⟩
  | .variable x =>
      exact ⟨'T', _, Ty.renderSignature.eq_4 x, by decide⟩
  | .argument a =>
      rw [Ty.renderSignature]
      exact ArgTy.renderSignature_starts a

theorem ArgTy.renderSignature_starts
    (a : ArgTy) :
    ∃ c rest, a.renderSignature = c :: rest ∧ c ≠ '>' := by
  match a with
  | .invariant t =>
      rw [ArgTy.renderSignature]
      exact Ty.renderSignature_starts t
  | .covariant t =>
      exact ⟨'+', _, ArgTy.renderSignature.eq_2 t, by decide⟩
  | .contravariant t =>
      exact ⟨'-', _, ArgTy.renderSignature.eq_3 t, by decide⟩
  | .wildcard =>
      exact ⟨'*', _, ArgTy.renderSignature.eq_4, by decide⟩

end

------------------------------------------------------------
-- Reading
------------------------------------------------------------

/- Types that erased texts show. -/
def Ty.Erased : Ty → Prop
  | .primitive _ => True
  | .array t => t.Erased
  | .object c => c.bare = c
  | .variable _ => False
  | .argument _ => False

namespace Parser

/- What the reader of a chain does behind one of its classes. -/
def goOn
    (n : Nat)
    (erased : Bool)
    (whole : List Char)
    (made : ClassTy) :
    List Char → Except Fault (ClassTy × List Char)
  | ';' :: rest => .ok (made, rest)
  | '.' :: rest => segments n erased whole (.inner made) rest
  | '$' :: rest => segments n erased whole (.nested made) rest
  | _ => .error (.malformed whole)

/- What the reader of a chain does behind the name of a class. -/
def argsOf
    (n : Nat)
    (erased : Bool)
    (whole : List Char) :
    List Char → Except Fault (List Ty × List Char)
  | '<' :: inside =>
      if erased then .error (.malformed whole)
      else arguments n whole inside
  | rest => .ok ([], rest)

theorem argsOf_of_ne
    {n : Nat}
    {erased : Bool}
    {whole cs : List Char}
    (hNone : ∀ inside, cs ≠ '<' :: inside) :
    argsOf n erased whole cs = .ok ([], cs) := by
  unfold argsOf
  split
  case h_1 inside => exact absurd rfl (hNone inside)
  case h_2 => rfl

theorem segments_eq
    (n : Nat)
    (erased : Bool)
    (whole : List Char)
    (make : String → List Ty → ClassTy)
    (cs : List Char) :
    segments (n + 1) erased whole make cs =
      if (cs.takeWhile (!endsName ·)).isEmpty then
        .error (.malformed whole)
      else
        argsOf n erased whole (cs.dropWhile (!endsName ·)) >>=
          fun (args, rest) =>
            goOn n erased whole
              (make (String.ofList (cs.takeWhile (!endsName ·))) args)
              rest := by
  rw [segments]
  dsimp only
  split
  case isTrue => rfl
  case isFalse =>
      generalize cs.dropWhile (!endsName ·) = behind
      split
      case h_1 inside => cases erased <;> rfl
      case h_2 hNone =>
          rw [argsOf_of_ne hNone]
          rfl

/- One class of a chain without arguments. -/
theorem segments_plain
    {n : Nat}
    {erased : Bool}
    {whole : List Char}
    {make : String → List Ty → ClassTy}
    {name : String}
    {mark : Char}
    {rest : List Char}
    (hName : SegmentName name)
    (hMark : mark ∈ [';', '.', '$']) :
    segments (n + 1) erased whole make (name.toList ++ mark :: rest) =
      goOn n erased whole (make name []) (mark :: rest) := by
  have hStops : endsName mark = true ∧ mark ≠ '<' := by
    simp only [List.mem_cons, List.not_mem_nil, or_false] at hMark
    rcases hMark with rfl | rfl | rfl <;> decide
  have hSplit := takeWhile_append_of_stop name.toList rest
    hName.endsName_eq_false hStops.1
  have hNone : argsOf n erased whole (mark :: rest) =
      .ok ([], mark :: rest) := by
    refine argsOf_of_ne fun inside hSame => ?_
    exact hStops.2 (List.cons.inj hSame).1
  rw [segments_eq, hSplit.1, hSplit.2, hName.isEmpty_eq_false, hNone,
    String.ofList_toList]
  rfl

/- And one with arguments. -/
theorem segments_open
    {n : Nat}
    {whole inside more : List Char}
    {make : String → List Ty → ClassTy}
    {name : String}
    {args : List Ty}
    (hName : SegmentName name)
    (hArgs : arguments n whole inside = .ok (args, more)) :
    segments (n + 1) false whole make (name.toList ++ '<' :: inside) =
      goOn n false whole (make name args) more := by
  have hSplit := takeWhile_append_of_stop name.toList inside
    hName.endsName_eq_false (c := '<') rfl
  have hOpen : argsOf n false whole ('<' :: inside) =
      .ok (args, more) := hArgs
  rw [segments_eq, hSplit.1, hSplit.2, hName.isEmpty_eq_false,
    hOpen, String.ofList_toList]
  rfl

/- One class of a chain, whatever its arguments are. -/
theorem segments_class
    {n : Nat}
    {erased : Bool}
    {whole : List Char}
    {make : String → List Ty → ClassTy}
    {name : String}
    {ts : List Ty}
    {x : Char}
    {rest : List Char}
    (hName : SegmentName name)
    (hStop : x ∈ [';', '.', '$'])
    (hErased : erased = true → ts = [])
    (hArgs : ∀ t us, ts = t :: us →
      arguments n whole
          (t.renderSignature ++ (renderMoreArgs us ++ x :: rest)) =
        .ok (rereadArgs ts, x :: rest)) :
    segments (n + 1) erased whole make
        (name.toList ++ (renderArgs ts ++ x :: rest)) =
      goOn n erased whole (make name (rereadArgs ts))
        (x :: rest) := by
  cases ts with
  | nil => exact segments_plain hName hStop
  | cons t us =>
      cases erased with
      | true => cases hErased rfl
      | false =>
          have hRead : segments (n + 1) false whole make
              (name.toList ++ '<' :: (t.renderSignature ++
                (renderMoreArgs us ++ x :: rest))) = _ :=
            segments_open hName (hArgs t us rfl)
          simpa only [renderArgs, List.cons_append,
            List.append_assoc] using hRead

/- A chain is read by its name, one class after another. -/
theorem segments_renderName
    (n : Nat)
    (erased : Bool)
    (whole : List Char)
    {x : Char}
    (rest : List Char)
    (c : ClassTy)
    (hPrintable : c.Printable)
    (hStop : x ∈ [';', '.', '$']) :
    segments (n + c.depth) erased whole .top
        (c.renderName ++ x :: rest) =
      goOn n erased whole c.bare (x :: rest) := by
  match c with
  | .top name ts => exact segments_plain hPrintable.1 hStop
  | .inner o name ts =>
      have hOuter := segments_renderName (n + 1) erased whole
        (name.toList ++ x :: rest) o hPrintable.1 (x := '.')
        (by decide)
      rw [ClassTy.renderName, ClassTy.depth, List.append_assoc,
        List.cons_append, ← Nat.add_assoc, Nat.add_right_comm,
        hOuter]
      exact segments_plain hPrintable.2.1 hStop
  | .nested o name ts =>
      have hOuter := segments_renderName (n + 1) erased whole
        (name.toList ++ x :: rest) o hPrintable.1 (x := '$')
        (by decide)
      rw [ClassTy.renderName, ClassTy.depth, List.append_assoc,
        List.cons_append, ← Nat.add_assoc, Nat.add_right_comm,
        hOuter]
      exact segments_plain hPrintable.2.1 hStop

theorem ty_class
    (n : Nat)
    (erased : Bool)
    (cs : List Char) :
    ty (n + 1) erased ('L' :: cs) =
      (segments n erased ('L' :: cs) .top cs).map
        fun (o, rest) => (.object o, rest) := by
  rw [ty]
  rfl

theorem ty_variable
    {name : String}
    (n : Nat)
    (rest : List Char)
    (hName : VariableName name) :
    ty (n + 1) false ('T' :: name.toList ++ ';' :: rest) =
      .ok (.variable name, rest) := by
  have hFree : ∀ d ∈ name.toList, (d == ';') = false := by
    intro d hd
    rw [beq_eq_false_iff_ne]
    rintro rfl
    exact hName.2 hd
  have hSplit := takeWhile_append_of_stop name.toList rest hFree
    (beq_self_eq_true ';')
  have hRead : variableTy
      ('T' :: (name.toList ++ ';' :: rest))
      (name.toList ++ ';' :: rest) =
        .ok (.variable name, rest) := by
    unfold variableTy
    dsimp only [bne]
    rw [hSplit.1, hSplit.2]
    cases hLetters : name.toList with
    | nil =>
        exact absurd (String.toList_eq_nil_iff.mp hLetters) hName.1
    | cons d ds =>
        dsimp only
        rw [← hLetters, String.ofList_toList]
  rw [List.cons_append, ty]
  exact hRead

theorem ty_array
    (n : Nat)
    (erased : Bool)
    {cs : List Char}
    (hSome : cs ≠ []) :
    ty (n + 1) erased ('[' :: cs) =
      (ty n erased cs).map fun (t, rest) => (.array t, rest) := by
  cases cs with
  | nil => exact absurd rfl hSome
  | cons c cs =>
      rw [ty]
      rfl

/- A bounded argument and what it is bounded by. -/
theorem ty_signed
    (n : Nat)
    {c : Char}
    {cs : List Char}
    (hSign : c = '+' ∨ c = '-')
    (hBound : startsBound cs = true) :
    ty (n + 1) false (c :: cs) =
      (ty n false cs).map fun (t, rest) =>
        (.argument (if c = '+' then .covariant t
          else .contravariant t), rest) := by
  rcases hSign with rfl | rfl
  · rw [ty]
    simp only [hBound, if_true]
    rfl
  · rw [ty]
    simp only [hBound, if_true]
    rfl

theorem ty_bounded
    {t : Ty}
    (c : Char)
    (n : Nat)
    (rest : List Char)
    (hSign : c = '+' ∨ c = '-')
    (hBound : t.BoundsArgument) :
    ty (n + 1) false (c :: (t.renderSignature ++ rest)) =
      (ty n false (t.renderSignature ++ rest)).map
        fun (t, rest) =>
          (.argument (if c = '+' then .covariant t
            else .contravariant t), rest) := by
  refine ty_signed n hSign ?_
  rcases hBound with ⟨d, more, hPrinted, hMark⟩
  rw [hPrinted]
  simp only [List.mem_cons, List.not_mem_nil, or_false] at hMark
  rcases hMark with rfl | rfl | rfl <;> rfl

mutual

/-
  A printed type is read, whatever follows it.  Each class of
  a chain costs one call, and each argument two, so the length
  of the text pays for all of them.
-/
theorem ty_reads
    {n : Nat}
    {erased : Bool}
    (rest : List Char)
    (t : Ty)
    (hPrintable : t.Printable)
    (hErased : erased = true → t.Erased)
    (hFuel : 2 * t.renderSignature.length + 1 ≤ n) :
    ty n erased (t.renderSignature ++ rest) =
      .ok (t.reread, rest) := by
  cases n with
  | zero => omega
  | succ n =>
      match t with
      | .primitive p =>
          rw [Ty.renderSignature, Ty.reread, List.singleton_append,
            ty]
          cases p <;> rfl
      | .array t =>
          rw [Ty.renderSignature, List.length_cons] at hFuel
          have hInner := ty_reads (n := n) rest t hPrintable
            hErased (by omega)
          rcases t.renderSignature_starts with ⟨c, cs, hStarts, _⟩
          have hSome : t.renderSignature ++ rest ≠ [] := by
            rw [hStarts]
            exact List.cons_ne_nil _ _
          rw [Ty.renderSignature, Ty.reread, List.cons_append,
            ty_array n erased hSome, hInner]
          rfl
      | .object c =>
          have hDepth := Nat.le_trans
            (c.depth_le_renderName hPrintable)
            c.length_renderName_le
          simp only [Ty.renderSignature, List.length_append,
            List.length_cons, List.length_nil] at hFuel
          have hChain := segments_reads (n := n - c.depth)
            ('L' :: (c.renderSignature ++ ';' :: rest)) rest c
            hPrintable hErased (x := ';') (by decide) (by omega)
          rw [Nat.sub_add_cancel (by omega)] at hChain
          simp only [Ty.renderSignature, Ty.reread,
            List.cons_append, List.append_assoc, List.nil_append]
          rw [ty_class, hChain]
          rfl
      | .variable x =>
          by_cases hFull : erased = true
          · cases hErased hFull
          · rw [Bool.not_eq_true] at hFull
            subst hFull
            rw [Ty.renderSignature, Ty.reread]
            simpa using ty_variable n rest hPrintable
      | .argument a =>
          by_cases hFull : erased = true
          · cases hErased hFull
          · rw [Bool.not_eq_true] at hFull
            subst hFull
            rw [Ty.renderSignature] at hFuel ⊢
            exact argument_reads rest a hPrintable hFuel

theorem segments_reads
    {n : Nat}
    {erased : Bool}
    (whole : List Char)
    {x : Char}
    (rest : List Char)
    (c : ClassTy)
    (hPrintable : c.Printable)
    (hErased : erased = true → c.bare = c)
    (hStop : x ∈ [';', '.', '$'])
    (hFuel : 2 * c.renderSignature.length ≤ n + c.depth) :
    segments (n + c.depth) erased whole .top
        (c.renderSignature ++ x :: rest) =
      goOn n erased whole c.reread (x :: rest) := by
  match c with
  | .top name ts =>
      have hPos := hPrintable.1.length_pos
      rw [ClassTy.renderSignature, ClassTy.depth,
        List.length_append] at hFuel
      rw [ClassTy.renderSignature, ClassTy.depth,
        List.append_assoc, ClassTy.reread]
      refine segments_class hPrintable.1 hStop ?_ ?_
      · intro hFull
        have hBare := hErased hFull
        rw [ClassTy.bare, ClassTy.top.injEq] at hBare
        exact hBare.2.symm
      · exact arguments_reads whole _ ts hPrintable.2 (by omega)
  | .inner o name ts =>
      have hDepth := Nat.le_trans
        (o.depth_le_renderName hPrintable.1) o.length_renderName_le
      simp only [ClassTy.renderSignature, ClassTy.depth,
        List.length_append, List.length_cons] at hFuel
      have hBare : erased = true → o.bare = o ∧ ts = [] := by
        intro hFull
        have hSame := hErased hFull
        rw [ClassTy.bare, ClassTy.inner.injEq] at hSame
        exact ⟨hSame.1, hSame.2.2.symm⟩
      have hOuter := segments_reads (n := n + 1) whole
        (name.toList ++ (renderArgs ts ++ x :: rest)) o
        hPrintable.1 (fun hFull => (hBare hFull).1) (x := '.')
        (by decide) (by omega)
      rw [Nat.add_right_comm] at hOuter
      simp only [ClassTy.renderSignature, ClassTy.depth,
        ClassTy.reread, List.append_assoc, List.cons_append]
      rw [← Nat.add_assoc, hOuter]
      refine segments_class hPrintable.2.1 hStop
        (fun hFull => (hBare hFull).2) ?_
      exact arguments_reads whole _ ts hPrintable.2.2 (by omega)
  | .nested o name ts =>
      have hDepth := o.depth_le_renderName hPrintable.1
      simp only [ClassTy.renderSignature, ClassTy.depth,
        List.length_append, List.length_cons] at hFuel
      have hOuter := segments_renderName (n + 1) erased whole
        (name.toList ++ (renderArgs ts ++ x :: rest)) o
        hPrintable.1 (x := '$') (by decide)
      rw [Nat.add_right_comm] at hOuter
      simp only [ClassTy.renderSignature, ClassTy.depth,
        ClassTy.reread, List.append_assoc, List.cons_append]
      rw [← Nat.add_assoc, hOuter]
      refine segments_class hPrintable.2.1 hStop ?_ ?_
      · intro hFull
        have hSame := hErased hFull
        rw [ClassTy.bare, ClassTy.nested.injEq] at hSame
        exact hSame.2.2.symm
      · exact arguments_reads whole _ ts hPrintable.2.2 (by omega)

theorem argument_reads
    {n : Nat}
    (rest : List Char)
    (a : ArgTy)
    (hPrintable : a.Printable)
    (hFuel : 2 * a.renderSignature.length + 1 ≤ n) :
    ty n false (a.renderSignature ++ rest) =
      .ok (a.reread, rest) := by
  match a with
  | .invariant t =>
      rw [ArgTy.renderSignature] at hFuel ⊢
      rw [ArgTy.reread]
      exact ty_reads rest t hPrintable
        (fun hNone => nomatch hNone) hFuel
  | .covariant t =>
      cases n with
      | zero => omega
      | succ n =>
          rw [ArgTy.renderSignature, List.length_cons] at hFuel
          have hInner := ty_reads (n := n) rest t hPrintable.2
            (fun hNone : false = true => nomatch hNone) (by omega)
          rw [ArgTy.renderSignature, ArgTy.reread, List.cons_append,
            ty_bounded '+' n rest (Or.inl rfl) hPrintable.1, hInner]
          rfl
  | .contravariant t =>
      cases n with
      | zero => omega
      | succ n =>
          rw [ArgTy.renderSignature, List.length_cons] at hFuel
          have hInner := ty_reads (n := n) rest t hPrintable.2
            (fun hNone : false = true => nomatch hNone) (by omega)
          rw [ArgTy.renderSignature, ArgTy.reread, List.cons_append,
            ty_bounded '-' n rest (Or.inr rfl) hPrintable.1, hInner]
          rfl
  | .wildcard =>
      cases n with
      | zero => omega
      | succ n =>
          rw [ArgTy.renderSignature, ArgTy.reread,
            List.singleton_append, ty]
          rfl

/- The arguments of a class, behind the opening bracket. -/
theorem arguments_reads
    {n : Nat}
    (whole rest : List Char)
    (ts : List Ty)
    (hPrintable : PrintableTypes ts)
    (hFuel : 2 * (renderArgs ts).length ≤ n + 2)
    (t : Ty)
    (us : List Ty)
    (hCons : ts = t :: us) :
    arguments n whole
        (t.renderSignature ++ (renderMoreArgs us ++ rest)) =
      .ok (rereadArgs ts, rest) := by
  match ts, hCons with
  | t :: us, rfl =>
      have hMore := renderMoreArgs_length_pos us
      simp only [renderArgs, List.length_cons, List.length_append,
        List.cons_append] at hFuel
      cases n with
      | zero => omega
      | succ n =>
          have hFirst := ty_reads (n := n)
            (renderMoreArgs us ++ rest) t hPrintable.1
            (fun hNone : false = true => nomatch hNone) (by omega)
          rcases t.renderSignature_starts with
            ⟨c, cs, hStarts, hOpen⟩
          have hSome : 0 < t.renderSignature.length := by
            rw [hStarts]
            exact Nat.succ_pos _
          rw [arguments]
          · rw [hFirst]
            match us with
            | [] => rfl
            | u :: vs =>
                simp only [renderMoreArgs, List.length_append]
                  at hFuel
                have hRest := arguments_reads (n := n) whole rest
                  (u :: vs) hPrintable.2
                  (by
                    simp only [renderArgs, List.cons_append,
                      List.length_cons, List.length_append]
                    omega)
                  u vs rfl
                rcases u.renderSignature_starts with
                  ⟨d, ds, hNext, hMoreOpen⟩
                simp only [renderMoreArgs, List.append_assoc,
                  hNext, List.cons_append] at hRest ⊢
                simp only [bind, Except.bind]
                split
                case h_1 rest' hClose =>
                    cases hClose
                    exact absurd rfl hMoreOpen
                case h_2 =>
                    rw [hRest]
                    rfl
          · intro hNil
            rw [hStarts] at hNil
            cases hNil
          · intro tail hClose
            rw [hStarts] at hClose
            cases hClose
            exact hOpen rfl

end

end Parser

------------------------------------------------------------
-- Whole Texts
------------------------------------------------------------

namespace Ty

/- The text of a printable type is read as a whole. -/
theorem parse_signature
    {t : Ty}
    {erased : Bool}
    (hPrintable : t.Printable)
    (hErased : erased = true → t.Erased) :
    Ty.parse erased t.signature = .ok t.reread := by
  have hRead := Parser.ty_reads [] t hPrintable hErased
    (Nat.le_refl _)
  rw [List.append_nil] at hRead
  rcases t.renderSignature_starts with ⟨c, cs, hStarts, _⟩
  unfold Ty.parse signature Parser.run
  rw [String.toList_ofList]
  rw [hStarts] at hRead ⊢
  dsimp only
  rw [hRead]

/-
  The type that a descriptor shows.  An argument has no
  descriptor.
-/
def erasure : Ty → Ty
  | .primitive p => .primitive p
  | .array t => .array t.erasure
  | .object c => .object c.bare
  | .variable _ => Known.object
  | .argument a => .argument a

theorem printable_object :
    Known.object.Printable := by
  exact ⟨.of_all (by decide) (by decide +kernel), trivial⟩

/- A descriptor is the full form of the erased type. -/
theorem Segmented.renderSignature_erasure
    {t : Ty}
    {cs : List Char}
    (hSegmented : t.Segmented)
    (hDescriptor : t.renderDescriptor = .ok cs) :
    t.erasure.Printable ∧ t.erasure.Erased ∧
      t.erasure.renderSignature = cs ∧
      t.erasure.renderDescriptor = .ok cs := by
  match t with
  | .primitive p =>
      cases hDescriptor
      exact ⟨trivial, trivial, rfl, rfl⟩
  | .array t =>
      rcases ok_bind.mp hDescriptor with ⟨inner, hInner, hSame⟩
      cases hSame
      rcases renderSignature_erasure (t := t) hSegmented hInner with
        ⟨hStays, hErased, hPrinted, hAgain⟩
      refine ⟨hStays, hErased, ?_, ?_⟩
      · rw [erasure, renderSignature, hPrinted]
      · rw [erasure, renderDescriptor, hAgain]
        rfl
  | .object c =>
      cases hDescriptor
      refine ⟨ClassTy.Segmented.printable_bare c hSegmented,
        c.bare_bare, ?_, ?_⟩
      · simp [erasure, renderSignature]
      · simp [erasure, renderDescriptor]
  | .variable x =>
      cases hDescriptor
      exact ⟨printable_object, rfl, rfl, rfl⟩
  | .argument a => cases hDescriptor

theorem renderSignature_erasure
    {t : Ty}
    {cs : List Char}
    (hPrintable : t.Printable)
    (hDescriptor : t.renderDescriptor = .ok cs) :
    t.erasure.Printable ∧ t.erasure.Erased ∧
      t.erasure.renderSignature = cs ∧
      t.erasure.renderDescriptor = .ok cs :=
  (Printable.segmented t hPrintable).renderSignature_erasure
    hDescriptor

/- The type that is read has the same erased form. -/
theorem renderDescriptor_reread
    {t : Ty}
    {cs : List Char}
    (hDescriptor : t.renderDescriptor = .ok cs) :
    t.reread.renderDescriptor = .ok cs := by
  match t with
  | .primitive p => exact hDescriptor
  | .array t =>
      rcases ok_bind.mp hDescriptor with ⟨inner, hInner, hSame⟩
      cases hSame
      rw [reread, renderDescriptor, renderDescriptor_reread hInner]
      rfl
  | .object c =>
      cases hDescriptor
      simp [reread, renderDescriptor]
  | .variable x => exact hDescriptor
  | .argument a => cases hDescriptor

/-
  A printed type is read as one that prints in the same way
  and has the same descriptor, and the descriptor is read as a
  type that prints as the descriptor.
-/
theorem signature_roundTrip
    (t : Ty)
    (hPrintable : t.Printable) :
    ∃ t', Ty.ofSignature t.signature = .ok t' ∧
      t'.signature = t.signature ∧
      ∀ d, t.descriptor = .ok d →
        t'.descriptor = .ok d ∧
        ∃ u, Ty.ofDescriptor d = .ok u ∧
          u.descriptor = .ok d ∧ u.signature = d := by
  refine ⟨t.reread, parse_signature hPrintable
    (fun hNone => nomatch hNone), ?_, ?_⟩
  · rw [signature, renderSignature_reread, ← signature]
  · intro d hd
    rcases ok_bind.mp hd with ⟨cs, hRender, hText⟩
    cases hText
    rcases renderSignature_erasure hPrintable hRender with
      ⟨hStays, hErased, hPrinted, hAgain⟩
    refine ⟨?_, t.erasure.reread, ?_, ?_, ?_⟩
    · rw [descriptor, renderDescriptor_reread hRender]
      rfl
    · have hRead := parse_signature hStays
        (fun _ : true = true => hErased)
      rw [signature, hPrinted] at hRead
      exact hRead
    · rw [descriptor, renderDescriptor_reread hAgain]
      rfl
    · rw [signature, renderSignature_reread, hPrinted]

/-
  An array of an inner class of a generic class, with a static
  class and a bounded argument in it.
-/
def nestedSample : Ty :=
  .array (.object (.inner
    (.top "a/Outer" [.argument (.covariant (.variable "E"))])
    "Inner"
    [.object (.nested (.top "b/Map" [.variable "K"]) "Entry"
      [.argument .wildcard])]))

theorem nestedSample_roundTrip :
    nestedSample.Printable ∧
      nestedSample.descriptor = .ok "[La/Outer.Inner;" ∧
      ∃ t', Ty.ofSignature nestedSample.signature = .ok t' ∧
        t'.signature = nestedSample.signature ∧
        t'.descriptor = .ok "[La/Outer.Inner;" ∧
        ∃ u, Ty.ofDescriptor "[La/Outer.Inner;" = .ok u ∧
          u.descriptor = .ok "[La/Outer.Inner;" ∧
          u.signature = "[La/Outer.Inner;" := by
  have hPrintable : nestedSample.Printable := by
    refine ⟨⟨.of_all (by decide) (by decide +kernel),
      ⟨⟨_, _, rfl, by decide⟩, ⟨by decide, by decide +kernel⟩⟩,
      trivial⟩, .of_all (by decide) (by decide +kernel),
      ⟨⟨.of_all (by decide) (by decide +kernel),
          ⟨by decide, by decide +kernel⟩, trivial⟩,
        .of_all (by decide) (by decide +kernel), trivial, trivial⟩,
      trivial⟩
  have hDescriptor :
      nestedSample.descriptor = .ok "[La/Outer.Inner;" := rfl
  rcases signature_roundTrip nestedSample hPrintable with
    ⟨t', hRead, hPrinted, hErased⟩
  rcases hErased _ hDescriptor with ⟨hSame, u, hu⟩
  exact ⟨hPrintable, hDescriptor, t', hRead, hPrinted, hSame, u, hu⟩

end Ty

end Jvm

end Stratagem
