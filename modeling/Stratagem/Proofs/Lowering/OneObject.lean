import Stratagem.Proofs.Lowering.Inventory

/-
  A class has one object.

  The object is made where the class is initialized and put into
  the only field.  No method makes another object of the class
  or stores to a field, whatever the body of the strategy is.

  Main declarations:
    * `Context.count_made`
    * `Context.stored_eq`
    * `Context.one_object`
-/

namespace Stratagem

open Jvm

universe u v

/- Names of classes of strategies end in the same way. -/
theorem QName.internalName_ne
    (q : QName)
    {name : String}
    (hOther : name.toList.getLast? ≠ some 'y') :
    q.internalName "Strategy" ≠ name := by
  rintro rfl
  refine hOther ?_
  have hLast : "Strategy".toList.getLast? = some 'y' := by
    decide
  unfold internalName
  split <;>
    rw [String.toList_append, List.getLast?_append, hLast] <;>
    rfl

namespace Context

variable {c : Context} {decl : StrategyDecl}
variable {definition : StrategyDef} {compiled : CompiledClass}
variable {signature : MethodSig} {typed erased : String}
variable {body : List Action}

------------------------------------------------------------
-- All Actions
------------------------------------------------------------

/- Handing a call on makes and stores nothing. -/
theorem modest_forwardActions
    (method : MemberRef)
    (params : List Ty)
    (result : Ty) :
    Modest (forwardActions method params result) :=
  ((((Modest.one rfl).append (modest_loadActions 1 params)).append
    (.one rfl)).append (modest_boxActions result)).append (.one rfl)

theorem modest_returnAction
    (t : Ty) :
    Modest [returnAction t] := by
  refine .one ?_
  unfold returnAction
  split <;> rfl

/-
  The actions of all methods.  The last two methods put texts
  together and make the one object; those before are modest.
-/
theorem exists_modest
    (hModest : Modest body) :
    ∃ before, Modest before ∧
      (classOutlines decl typed erased signature body).flatMap
          MethodOutline.actions =
        before ++
          (toStringOutline
            (decl.name.internalName "Strategy")).actions ++
          (staticInitOutline (decl.name.internalName "Strategy")
            ("L" ++ decl.name.internalName "Strategy" ++
              ";")).actions := by
  let owner := decl.name.internalName "Strategy"
  let text := "L" ++ owner ++ ";"
  have hFront : ∀ o ∈ frontOutlines owner text (strategyClass decl),
      Modest o.actions := by
    refine List.forall_mem_cons.mpr
      ⟨?_, List.forall_mem_singleton.mpr ?_⟩
    · exact ((Modest.one rfl).append (.one rfl)).append (.one rfl)
    · exact (Modest.one rfl).append (modest_returnAction _)
  have hBridge : ∀ o ∈ (if erased = typed then []
      else [bridgeOutline owner typed erased signature]),
      Modest o.actions := by
    split
    case isTrue => exact nofun
    case isFalse =>
        exact List.forall_mem_singleton.mpr
          (modest_forwardActions _ _ _)
  have hName : Modest (getNameOutline decl.name.simple).actions :=
    (Modest.one rfl).append (.one rfl)
  refine ⟨(frontOutlines owner text (strategyClass decl) ++
    evalOutline typed body ::
      ((if erased = typed then []
        else [bridgeOutline owner typed erased signature]) ++
          [getNameOutline decl.name.simple])).flatMap
            MethodOutline.actions, ?_, ?_⟩
  · intro a hIn
    rcases List.mem_flatMap.mp hIn with ⟨o, hOutline, hAction⟩
    simp only [List.mem_append, List.mem_cons, List.not_mem_nil,
      or_false] at hOutline
    rcases hOutline with hOne | rfl | hTwo | rfl
    · exact hFront o hOne a hAction
    · exact hModest a hAction
    · exact hBridge o hTwo a hAction
    · exact hName a hAction
  · simp [classOutlines, backOutlines, owner, text]

/- The one object of the class is all that is made of it. -/
theorem count_made
    (hModest : Modest body) :
    (((classOutlines decl typed erased signature body).flatMap
      MethodOutline.actions).filterMap Action.made?).count
        (decl.name.internalName "Strategy") = 1 := by
  have hOther : ∀ name ∈ ["java/lang/Object",
      "java/lang/NullPointerException", "java/lang/StringBuilder"],
      decl.name.internalName "Strategy" ≠ name := by
    intro name hIn
    refine decl.name.internalName_ne ?_
    revert hIn name
    decide
  rcases exists_modest hModest with ⟨before, hBefore, hAll⟩
  have hNone := hBefore.count_made
    (hOther "java/lang/Object" (by decide))
    (hOther "java/lang/NullPointerException" (by decide))
  have hBuilder := hOther "java/lang/StringBuilder" (by decide)
  have hTexts (owner : String) :
      (toStringOutline owner).actions.filterMap Action.made? =
        ["java/lang/StringBuilder"] := rfl
  have hInit (owner text : String) :
      (staticInitOutline owner text).actions.filterMap
        Action.made? = [owner] := rfl
  rw [hAll, List.filterMap_append, List.filterMap_append,
    List.count_append, List.count_append, hNone, hTexts, hInit]
  simp [hBuilder.symm]

/- Its field is all that is stored to. -/
theorem stored_eq
    (hModest : Modest body) :
    ((classOutlines decl typed erased signature body).flatMap
      MethodOutline.actions).filterMap Action.stored? =
        [instanceRef (decl.name.internalName "Strategy")
          ("L" ++ decl.name.internalName "Strategy" ++ ";")] := by
  rcases exists_modest hModest with ⟨before, hBefore, hAll⟩
  rw [hAll, List.filterMap_append, List.filterMap_append,
    hBefore.stored_eq_nil]
  rfl

------------------------------------------------------------
-- The One Object
------------------------------------------------------------

theorem exchange?_init
    (owner : String) :
    (MemberRef.ofCall .special owner "<init>" "()V").exchange?
      .special = some (1, false) := by
  have hReads : parseMethodDescriptor "()V" =
      .ok ([], .primitive .void) := rfl
  rw [MemberRef.exchange?, MemberRef.ofCall, hReads]
  rfl

/-
  In every class that is compiled one object of the class is
  made, where the class is initialized.  It is constructed and
  put into the only field.  Nothing else is stored anywhere, and
  `getInstance` gives what the field holds.
-/
theorem one_object
    (hRun : c.compileStrategy decl definition = .ok compiled) :
    ∃ (file : ClassFile) (outlines : List MethodOutline)
      (owner : String) (field init : MemberRef),
      owner = decl.name.internalName "Strategy" ∧
      field = .ofField owner "instance" ("L" ++ owner ++ ";") ∧
      init = .ofCall .special owner "<init>" "()V" ∧
      ClassFile.parse compiled.bytes = .ok file ∧
      file.thisName? = some owner ∧
      (∃ f, file.fields = [f] ∧
        f.Called file.pool
          (Access.isPrivate ||| staticFlag ||| Access.isFinal)
          "instance" ("L" ++ owner ++ ";")) ∧
      file.methods.map file.outline? = outlines.map some ∧
      ((outlines.flatMap MethodOutline.actions).filterMap
        Action.made?).count owner = 1 ∧
      (outlines.flatMap MethodOutline.actions).filterMap
        Action.stored? = [field] ∧
      (∃ o ∈ outlines,
        o.key = ("<clinit>", "()V") ∧ o.access = staticFlag ∧
        o.actions =
          [.new 0 owner, .dup, .invoke .special init,
            .putstatic field, .returnVoid] ∧
        ∀ (M : Type u → Type v) (V : Type u) [Monad M]
          [LawfulMonad M] (r : Runtime M V)
          (locals : Nat → Option V),
          r.run locals o.actions [] = do
            let v ← r.create owner
            let _ ← r.call .special init [v]
            r.set field v
            return .nothing) ∧
      (∃ o ∈ outlines,
        o.key = ("getInstance", "()L" ++ owner ++ ";") ∧
        o.access =
          Access.isPublic ||| staticFlag ||| Access.isFinal ∧
        o.actions = [.getstatic field, .returnValue .ref] ∧
        ∀ (M : Type u → Type v) (V : Type u) [Monad M]
          [LawfulMonad M] (r : Runtime M V)
          (locals : Nat → Option V),
          r.run locals o.actions [] = do
            let v ← r.get field
            return .value v) := by
  rcases compiled_of_compileStrategy hRun with
    ⟨file, signature, typed, body, hParse, hCompiled⟩
  refine ⟨file, _, _, _, _, rfl, rfl, rfl, hParse,
    hCompiled.thisName, hCompiled.field, hCompiled.outlines,
    count_made hCompiled.modest, stored_eq hCompiled.modest, ?_,
    ?_⟩
  · refine ⟨staticInitOutline (decl.name.internalName "Strategy")
      ("L" ++ decl.name.internalName "Strategy" ++ ";"), ?_, rfl,
      rfl, rfl, ?_⟩
    · simp [classOutlines, backOutlines]
    · intro M V _ _ r locals
      simp [staticInitOutline, instanceRef, instanceField,
        Runtime.run, exchange?_init]
  · refine ⟨getInstanceOutline (decl.name.internalName "Strategy")
      ("L" ++ decl.name.internalName "Strategy" ++ ";")
      (strategyClass decl), ?_, ?_, rfl, ?_, ?_⟩
    · simp [classOutlines, frontOutlines]
    · have hText : ∀ owner : String,
          "()" ++ ("L" ++ owner ++ ";") = "()L" ++ owner ++ ";" := by
        intro owner
        apply String.toList_injective
        simp
      rw [MethodOutline.key, getInstanceOutline, hText]
    · rw [getInstanceOutline, returnAction_object rfl]
      rfl
    · intro M V _ _ r locals
      rw [getInstanceOutline, returnAction_object rfl]
      simp [Runtime.run, instanceRef, instanceField]

end Context

------------------------------------------------------------
-- A Sample
------------------------------------------------------------

/- A strategy that gives an object. -/
def sparkDecl : StrategyDecl where
  name := ⟨.root, "spark", by decide +kernel⟩
  ty := { params := [], input := .base .string
          output := .base .any }
  modifiers := []
  pointer := { resource := "spark", index := 0 }

/- The object is a new one. -/
def sparkDef : StrategyDef where
  name := sparkDecl.name
  params := []
  input := "text"
  body := .object (.base .any)
  pointer := none

/- The object of the class is not the one that it gives. -/
theorem sparkDef_oneObject :
    ∃ (compiled : CompiledClass) (file : ClassFile)
      (outlines : List MethodOutline),
      paddedContext.compileStrategy sparkDecl sparkDef =
        .ok compiled ∧
      ClassFile.parse compiled.bytes = .ok file ∧
      file.thisName? = some "sparkStrategy" ∧
      file.methods.map file.outline? = outlines.map some ∧
      ((outlines.flatMap MethodOutline.actions).filterMap
        Action.made?).count "sparkStrategy" = 1 ∧
      (outlines.flatMap MethodOutline.actions).filterMap
        Action.stored? =
          [.ofField "sparkStrategy" "instance" "LsparkStrategy;"]
      := by
  have hMade : (paddedContext.compileStrategy sparkDecl
      sparkDef).toOption.isSome = true := by
    decide +kernel
  cases hRun : paddedContext.compileStrategy sparkDecl sparkDef with
  | error e =>
      rw [hRun] at hMade
      cases hMade
  | ok compiled =>
      rcases Context.one_object.{0, 0} hRun with
        ⟨file, outlines, _, _, _, rfl, rfl, rfl, hParse, hThis, -,
          hOutlines, hCount, hStored, -⟩
      exact ⟨compiled, file, outlines, rfl, hParse, hThis,
        hOutlines, hCount, hStored⟩

end Stratagem
