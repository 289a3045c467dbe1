import Stratagem.Proofs.Lowering.Inventory

/-
  The method of the interface hands its call on.

  A class has one method for the interface, whatever the types
  of its strategy are.  If the method with the body is another,
  then the first one calls it with its arguments as values of
  the types that the other takes, and gives the result as an
  object.

  Main declarations:
    * `Context.nodup_keys`
    * `Context.mem_keys`
    * `Context.eval_forwards`
-/

namespace Stratagem

open Jvm

universe u v

namespace Context

variable {c : Context} {decl : StrategyDecl}
variable {definition : StrategyDef} {compiled : CompiledClass}
variable {signature : MethodSig} {typed erased : String}
variable {body : List Action}

------------------------------------------------------------
-- Keys
------------------------------------------------------------

/- The keys of all methods; the interface may have its own. -/
theorem keys_eq
    (decl : StrategyDecl)
    (typed erased : String)
    (signature : MethodSig)
    (body : List Action) :
    (classOutlines decl typed erased signature body).map
        MethodOutline.key =
      [("<init>", "()V"),
        ("getInstance",
          "()" ++ ("L" ++ decl.name.internalName "Strategy" ++ ";")),
        ("eval", typed)] ++
      (if erased = typed then [] else [("eval", erased)]) ++
      [("getName", "()Ljava/lang/String;"),
        ("toString", "()Ljava/lang/String;"),
        ("<clinit>", "()V")] := by
  unfold classOutlines backOutlines
  split <;> rfl

/- No two methods have both their names and descriptors. -/
theorem nodup_keys :
    ((classOutlines decl typed erased signature body).map
      MethodOutline.key).Nodup := by
  rw [keys_eq]
  split
  case isTrue => simp
  case isFalse hOther =>
      have hOther' : typed ≠ erased := fun hSame =>
        hOther hSame.symm
      simp [hOther']

/- Both methods called `eval` are there, or they are one. -/
theorem mem_keys :
    ("eval", typed) ∈
        (classOutlines decl typed erased signature body).map
          MethodOutline.key ∧
      ("eval", erased) ∈
        (classOutlines decl typed erased signature body).map
          MethodOutline.key := by
  rw [keys_eq]
  split
  case isTrue hSame => simp [hSame]
  case isFalse => simp

------------------------------------------------------------
-- The Method of the Interface
------------------------------------------------------------

/-
  Methods called `eval` are for all, and for objects.  The
  others have other names.
-/
theorem access_eval
    {o : MethodOutline}
    (hIn : o ∈ classOutlines decl typed erased signature body)
    (hName : o.name = "eval") :
    o.access &&& (Access.isPublic ||| staticFlag) =
      Access.isPublic := by
  simp only [classOutlines, frontOutlines, backOutlines,
    List.mem_append, List.mem_cons, List.not_mem_nil, or_false]
    at hIn
  rcases hIn with (rfl | rfl) | rfl | hBridge | rfl | rfl | rfl
  case inr.inl =>
      have hFlags : Access.isPublic &&&
          (Access.isPublic ||| staticFlag) = Access.isPublic := by
        decide
      exact hFlags
  case inr.inr.inl =>
      have hFlags : (Access.isPublic ||| Access.isBridge |||
          Access.isSynthetic) &&& (Access.isPublic ||| staticFlag) =
            Access.isPublic := by
        decide
      split at hBridge
      case isTrue => cases hBridge
      case isFalse =>
          rw [List.mem_singleton.mp hBridge]
          exact hFlags
  all_goals
    simp [constructorOutline, getInstanceOutline, getNameOutline,
      toStringOutline, staticInitOutline] at hName

/-
  In every class that is compiled no two methods have the same
  name and descriptor, and one method is that of the interface.
  If it is not the one with the body, then on any machine it
  calls that one with its arguments converted, and gives what
  it gave as an object.
-/
theorem eval_forwards
    (hRun : c.compileStrategy decl definition = .ok compiled) :
    ∃ (file : ClassFile) (outlines : List MethodOutline)
      (signature : MethodSig) (typed : String),
      ClassFile.parse compiled.bytes = .ok file ∧
      file.thisName? = some (decl.name.internalName "Strategy") ∧
      file.methods.map file.outline? = outlines.map some ∧
      c.evalSignature decl.ty = .ok signature ∧
      signature.params.length = decl.ty.arity + 2 ∧
      signature.descriptor = .ok typed ∧
      (outlines.map MethodOutline.key).Nodup ∧
      (outlines.map MethodOutline.key).count
        ("eval", erasedText decl.ty.arity) = 1 ∧
      ("eval", typed) ∈ outlines.map MethodOutline.key ∧
      (∀ o ∈ outlines, o.name = "eval" →
        o.access &&& (Access.isPublic ||| staticFlag) =
          Access.isPublic) ∧
      (typed ≠ erasedText decl.ty.arity →
        ∃ o ∈ outlines,
          o.key = ("eval", erasedText decl.ty.arity) ∧
          ∀ (M : Type u → Type v) (V : Type u) [Monad M]
            [LawfulMonad M] (r : Runtime M V) (this : V)
            (args : List V),
            args.length = decl.ty.arity + 2 →
              r.run (fun k => (this :: args)[k]?) o.actions [] =
                r.forward
                  (.ofCall .virtual
                    (decl.name.internalName "Strategy") "eval"
                    typed)
                  signature.params signature.result this args) := by
  rcases compiled_of_compileStrategy hRun with
    ⟨file, signature, typed, body, hParse, hCompiled⟩
  have hArity :=
    (evalSignature_parts hCompiled.signature_eq).2.1
  refine ⟨file, _, signature, typed, hParse, hCompiled.thisName,
    hCompiled.outlines, hCompiled.signature_eq, hArity,
    hCompiled.typed_eq, nodup_keys,
    List.count_eq_one_of_mem nodup_keys mem_keys.2, mem_keys.1,
    fun o hIn hName => access_eval hIn hName, ?_⟩
  intro hOther
  refine ⟨bridgeOutline (decl.name.internalName "Strategy") typed
    (erasedText decl.ty.arity) signature, ?_, rfl, ?_⟩
  · have hBridge : erasedText decl.ty.arity ≠ typed := hOther.symm
    simp [classOutlines, backOutlines, hBridge]
  · intro M V _ _ r this args hArgs
    exact Runtime.run_forward signature.result this
      (hCompiled.call hOther.symm) (hArgs.trans hArity.symm)

end Context

------------------------------------------------------------
-- A Sample
------------------------------------------------------------

/- A strategy from a string to a wide number. -/
def measureDecl : StrategyDecl where
  name := ⟨.root, "measure", by decide +kernel⟩
  ty := { params := [.base .long], input := .base .string
          output := .base .long }
  modifiers := []
  pointer := { resource := "measure", index := 0 }

/- It gives back its parameter. -/
def measureDef : StrategyDef where
  name := measureDecl.name
  params := [{ name := "width", ty := none }]
  input := "text"
  body := .var "width" none (.base .long)
  pointer := none

/- The number is unwrapped, and the result is wrapped. -/
theorem measureDef_forwards :
    ∃ (compiled : CompiledClass) (file : ClassFile)
      (outlines : List MethodOutline) (o : MethodOutline),
      paddedContext.compileStrategy measureDecl measureDef =
        .ok compiled ∧
      ClassFile.parse compiled.bytes = .ok file ∧
      file.methods.map file.outline? = outlines.map some ∧
      o ∈ outlines ∧
      ∀ (M : Type u → Type v) (V : Type u) [Monad M]
        [LawfulMonad M] (r : Runtime M V)
        (this context width text : V),
        r.run (fun k => [this, context, width, text][k]?) o.actions
            [] = do
          r.cast "java/lang/Long" width
          let n ← r.call .virtual
            (.unwrapping .long "java/lang/Long") [width]
          r.cast "java/lang/String" text
          let v ← r.call .virtual
            (.ofCall .virtual "measureStrategy" "eval"
              "(Ljava/lang/Object;JLjava/lang/String;)J")
            [this, context, n, text]
          let object ← r.call .static
            (.wrapping .long "java/lang/Long") [v]
          return .value object := by
  have hMade : (paddedContext.compileStrategy measureDecl
      measureDef).toOption.isSome = true := by
    decide +kernel
  cases hRun : paddedContext.compileStrategy measureDecl
      measureDef with
  | error e =>
      rw [hRun] at hMade
      cases hMade
  | ok compiled =>
      rcases Context.eval_forwards.{u, v} hRun with
        ⟨file, outlines, signature, typed, hParse, -, hOutlines,
          hSignature, -, hTyped, -, -, -, -, hForward⟩
      cases hSignature
      cases hTyped
      rcases hForward (by decide +kernel) with ⟨o, hIn, -, hRuns⟩
      refine ⟨compiled, file, outlines, o, rfl, hParse, hOutlines,
        hIn, ?_⟩
      intro M V _ _ r this context width text
      rw [hRuns M V r this [context, width, text] rfl]
      have hContext : r.convert Context.contextTy context =
          pure context := rfl
      have hNumber : r.convert (.primitive .long) width =
          r.cast "java/lang/Long" width >>= fun _ =>
            r.call .virtual (.unwrapping .long "java/lang/Long")
              [width] := rfl
      have hString : r.convert Known.string text =
          r.cast "java/lang/String" text >>= fun _ =>
            pure text := rfl
      have hResult : ∀ v, r.box (.primitive .long) v =
          r.call .static (.wrapping .long "java/lang/Long") [v] :=
        fun _ => rfl
      simp only [Runtime.forward, List.cons_append, List.nil_append,
        Runtime.convertAll, hContext, hNumber, hString, hResult,
        bind_assoc, pure_bind]
      rfl

end Stratagem
