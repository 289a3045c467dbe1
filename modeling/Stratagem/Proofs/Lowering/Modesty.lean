import Stratagem.Proofs.Assembly.Outline
import Stratagem.Proofs.Lowering.Code

/-
  Expressions store nothing.

  Whatever an expression is, its code stores to no field and
  makes no objects but plain ones.  So what a class does with
  its own fields and objects it does outside of the expression.

  Key definitions include:
    * `Action.isModest`
    * `Modest`

  Main declarations:
    * `CompoundCode.modest`
    * `SpineCode.modest`
    * `Modest.stored_eq_nil`
    * `Modest.count_made`
-/

namespace Stratagem

open Jvm

------------------------------------------------------------
-- Modest Code
------------------------------------------------------------

/- Only plain objects and exceptions are made. -/
def Action.isModest : Action → Bool
  | .new _ name =>
      name == "java/lang/Object" ||
        name == "java/lang/NullPointerException"
  | .putstatic _ => false
  | _ => true

/- Code that stores nothing and makes nothing else. -/
def Modest
    (as : List Action) : Prop :=
  ∀ a ∈ as, a.isModest = true

namespace Modest

variable {as bs : List Action}

theorem append
    (hFirst : Modest as)
    (hNext : Modest bs) :
    Modest (as ++ bs) :=
  List.forall_mem_append.mpr ⟨hFirst, hNext⟩

theorem nil :
    Modest [] :=
  nofun

theorem one
    {a : Action}
    (hOne : a.isModest = true) :
    Modest [a] :=
  List.forall_mem_singleton.mpr hOne

/- Nothing is stored. -/
theorem stored_eq_nil
    (hModest : Modest as) :
    as.filterMap Action.stored? = [] := by
  rw [List.filterMap_eq_nil_iff]
  intro a hIn
  have hOne := hModest a hIn
  cases a <;> first | rfl | cases hOne

/- No object of another class is made. -/
theorem count_made
    {name : String}
    (hModest : Modest as)
    (hObject : name ≠ "java/lang/Object")
    (hException : name ≠ "java/lang/NullPointerException") :
    (as.filterMap Action.made?).count name = 0 := by
  rw [List.count_eq_zero]
  intro hIn
  rcases List.mem_filterMap.mp hIn with ⟨a, hMember, hMade⟩
  have hOne := hModest a hMember
  cases a with
  | new offset made =>
      cases hMade
      simp [Action.isModest, hObject, hException] at hOne
  | _ => cases hMade

end Modest

------------------------------------------------------------
-- Conversions
------------------------------------------------------------

theorem modest_castActions
    (t : Ty) :
    Modest (castActions t) := by
  unfold castActions
  split
  case h_1 =>
      split
      case isTrue => exact .nil
      case isFalse => exact .one rfl
  case h_2 => exact .nil

theorem modest_boxActions
    (t : Ty) :
    Modest (boxActions t) := by
  unfold boxActions
  split
  case h_1 =>
      split
      case h_1 => exact .one rfl
      case h_2 => exact .nil
  case h_2 => exact .nil

theorem modest_unboxActions
    (t : Ty) :
    Modest (unboxActions t) := by
  unfold unboxActions
  split
  case h_1 =>
      split
      case h_1 => exact .append (.one rfl) (.one rfl)
      case h_2 => exact .nil
  case h_2 => exact modest_castActions _

theorem modest_loadActions
    (slot : Nat)
    (ts : List Ty) :
    Modest (loadActions slot ts) := by
  induction ts generalizing slot with
  | nil => exact .nil
  | cons t ts ih =>
      exact ((Modest.one rfl).append (modest_unboxActions t)).append
        (ih (slot + 1))

theorem Coerces.modest
    {source target : Ty}
    {as : List Action}
    (hCode : Coerces source target as) :
    Modest as := by
  cases hCode with
  | same => exact .nil
  | cast => exact modest_castActions target
  | box =>
      exact (modest_boxActions source).append
        (modest_castActions target)
  | unbox => exact modest_unboxActions target

------------------------------------------------------------
-- Expressions
------------------------------------------------------------

section Expressions

variable {c : Context} {ts us : List Ty} {env : Environment}
variable {ctx : Local} {e : Exp} {es : List Exp}
variable {as : List Action} {t : Ty}

theorem modest_literalActions
    (n : Int32)
    (t : Ty) :
    Modest (literalActions n t) := by
  cases t with
  | primitive p => exact .one rfl
  | _ =>
      exact (Modest.one rfl).append
        (modest_boxActions (.primitive .int))

/- An object of its own is all that a constant makes. -/
theorem ImmediateCode.modest
    (hCode : ImmediateCode c ts env e as t) :
    Modest as := by
  cases hCode with
  | bound => exact .one rfl
  | global => exact .one rfl
  | int => exact modest_literalActions _ _
  | str => exact .one rfl
  | object =>
      exact ((Modest.one rfl).append (.one rfl)).append (.one rfl)

theorem ArgsCode.modest
    (hCode : ArgsCode c ts env es as) :
    Modest as := by
  induction hCode with
  | nil => exact .nil
  | cons hFirst _ ih =>
      exact (hFirst.modest.append (modest_boxActions _)).append ih

theorem CompoundCode.modest
    (hCode : CompoundCode c ts env ctx e as t) :
    Modest as := by
  cases hCode with
  | immediate hCode => exact hCode.modest
  | applyNone hFunction => exact hFunction.modest
  | apply _ hFunction _ hCoerce hArgs =>
      exact ((hFunction.modest.append hCoerce.modest).append
        hArgs.modest).append (.one rfl)
  | eval _ hStrategy _ hCoerce _ hInput =>
      exact ((((((hStrategy.modest.append hCoerce.modest).append
        (.one rfl)).append hInput.modest).append
          (modest_boxActions _)).append (.one rfl)).append
            (modest_unboxActions _))

/- So is the code of bindings in front of a computation. -/
theorem SpineCode.modest
    (hCode : SpineCode c ctx ts env e as us t) :
    Modest as := by
  induction hCode with
  | letIn _ hBound hCoerce _ ih =>
      exact ((hBound.modest.append hCoerce.modest).append
        (.one rfl)).append ih
  | last hCode => exact hCode.modest

end Expressions

end Stratagem
