import Stratagem.Proofs.Lowering.NullChecks

/-
  What a compiled class consists of.

  The outlines of all methods of a class are known, that of the
  method with the body up to its code, which is modest.

  Key definitions include:
    * `Context.evalOutline`
    * `Context.classOutlines`
    * `Context.Compiled`

  Main declarations:
    * `Context.HoldsEval.follows`
    * `Context.compiled_of_compileStrategy`
-/

namespace Stratagem

open Jvm

namespace Context

/- The method that holds the body, with its code. -/
def evalOutline
    (typed : String)
    (body : List Action) : MethodOutline where
  access := Access.isPublic
  name := "eval"
  descriptor := typed
  actions := body

/- All methods of a class, in their order. -/
def classOutlines
    (decl : StrategyDecl)
    (typed erased : String)
    (signature : MethodSig)
    (body : List Action) : List MethodOutline :=
  let owner := decl.name.internalName "Strategy"
  let text := "L" ++ owner ++ ";"
  frontOutlines owner text (strategyClass decl) ++
    evalOutline typed body ::
      backOutlines owner text decl.name.simple typed erased
        signature

/- From so many objects, and two more, to an object. -/
def erasedText
    (arity : Nat) : String :=
  "(" ++
    String.join
      (List.replicate (arity + 2) "Ljava/lang/Object;") ++
    ")Ljava/lang/Object;"

/-
  A class file for a declaration: its name, its one field, its
  methods, and what its method with the body takes and gives.
-/
structure Compiled
    (c : Context)
    (decl : StrategyDecl)
    (signature : MethodSig)
    (typed : String)
    (body : List Action)
    (file : ClassFile) : Prop where
  signature_eq : c.evalSignature decl.ty = .ok signature
  typed_eq : signature.descriptor = .ok typed
  call : erasedText decl.ty.arity ≠ typed →
    (MemberRef.ofCall .virtual (decl.name.internalName "Strategy")
      "eval" typed).exchange? .virtual =
        some (signature.params.length + 1, true)
  thisName : file.thisName? =
    some (decl.name.internalName "Strategy")
  field : ∃ f, file.fields = [f] ∧
    f.Called file.pool
      (Access.isPrivate ||| staticFlag ||| Access.isFinal)
      instanceField
      ("L" ++ decl.name.internalName "Strategy" ++ ";")
  modest : Modest body
  outlines : file.methods.map file.outline? =
    (classOutlines decl typed (erasedText decl.ty.arity) signature
      body).map some

variable {className : String} {c : Context} {signature : MethodSig}

theorem mapM_replicate
    {α β ε : Type}
    {f : α → Except ε β}
    {a : α}
    {b : β}
    (n : Nat)
    (hOne : f a = .ok b) :
    (List.replicate n a).mapM f = .ok (List.replicate n b) := by
  induction n with
  | zero => rfl
  | succ n ih =>
      rw [List.replicate_succ, List.mapM_cons, hOne, ih]
      rfl

/- The descriptor of the method of the interface. -/
theorem descriptor_bridgeSignature
    (arity : Nat) :
    (bridgeSignature arity).descriptor =
      .ok (erasedText arity) := by
  have hObject : Known.object.descriptor =
      .ok "Ljava/lang/Object;" := descriptor_ofClass _
  simp only [MethodSig.descriptor, bridgeSignature,
    mapM_replicate _ hObject, hObject]
  change Except.ok _ = Except.ok _
  rw [Except.ok.injEq, erasedText, ← String.toList_inj]
  simp

/- A check makes nothing but its exception. -/
theorem modest_check
    (k : NullCheck) :
    Modest (k.points.map CodePoint.action) := by
  simp [Modest, NullCheck.points, Action.isModest,
    nullPointerException]

/- The method with the body has an outline, too. -/
theorem HoldsEval.follows
    {names : List String}
    {p : ConstantPool}
    {member : Member}
    {typed : String}
    (hName : p.textAt? member.name = some "eval")
    (hTyped : signature.descriptor = .ok typed)
    (hHolds : HoldsEval className names signature p member) :
    ∃ body, Modest body ∧
      member.Follows p (evalOutline typed body) := by
  rcases hHolds.written with ⟨m, is, checks, rest, hAccess, hText,
    hResolve, hSpelled, -, hModest, -, hGrown, hMember⟩
  refine ⟨(checks.flatMap NullCheck.points ++ rest).map
      CodePoint.action, ?_, m, _, is, hSpelled, hResolve, hGrown,
    hMember, ?_⟩
  · rw [List.map_append, List.map_flatMap]
    refine Modest.append ?_ hModest
    intro a hIn
    rcases List.mem_flatMap.mp hIn with ⟨k, -, hPoint⟩
    exact modest_check k a hPoint
  · have hSame := hMember.name
    rw [hName] at hSame
    rw [hTyped] at hText
    cases hText
    rw [hAccess, ← Option.some.inj hSame]
    rfl

/- What every compiled class consists of. -/
theorem compiled_of_compileStrategy
    {decl : StrategyDecl}
    {definition : StrategyDef}
    {compiled : CompiledClass}
    (hRun : c.compileStrategy decl definition = .ok compiled) :
    ∃ file signature typed body,
      ClassFile.parse compiled.bytes = .ok file ∧
      c.Compiled decl signature typed body file := by
  rcases generate_parts (generate_of_compileStrategy hRun) with
    ⟨interface, access, start, done, -, hStart, hMembers, hBytes⟩
  rcases written_outlines (descriptor_ofClass _)
      (ClassDraft.finished_start hStart) hMembers with
    ⟨hWritable, signature, typed, erased, field, member, front,
      back, hSignature, hTyped, hErased, hCall, hThis, hFields,
      hField, hMethods, hFront, hName, hHolds, hBack⟩
  rw [descriptor_bridgeSignature] at hErased
  cases hErased
  rcases hHolds.follows hName hTyped with ⟨body, hModest, hBody⟩
  have hParse := hWritable.parse (by omega)
  rw [← hBytes] at hParse
  refine ⟨done.toClassFile, signature, typed, body, hParse,
    hSignature, hTyped, hCall, hThis, ⟨field, hFields, hField⟩,
    hModest, ?_⟩
  have hAll : List.Forall₂ (Member.Follows done.pool)
      (front ++ member :: back)
      (classOutlines decl typed (erasedText decl.ty.arity) signature
        body) :=
    List.rel_append hFront (.cons hBody hBack)
  rw [← hMethods] at hAll
  exact map_outline? done.toClassFile hAll

end Context

end Stratagem
