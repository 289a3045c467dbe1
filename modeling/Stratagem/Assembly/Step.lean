import Stratagem.Assembly.ClassDraft

/-
  The steps of writing a method, as data.

  Key definitions include:
    * `Step`
    * `Step.run`
    * `Step.runAll`
-/

namespace Stratagem

open Jvm

/- One call that adds to a draft. -/
inductive Step where
  | aconstNull
  | iconst (n : Int32)
  | lconst (n : Int64)
  | fconst (x : Binary32)
  | dconst (x : Binary64)
  | ldcString (s : String)
  | ldcClass (name : String)
  | load (l : Local)
  | store (l : Local)
  | newLocal (name : String) (ty : Ty)
  | loadThis
  | drop
  | dup
  | swap
  | new (name : String)
  | checkcast (ty : Ty)
  | athrow
  | getstatic (owner name : String) (ty : Ty)
  | putstatic (owner name : String) (ty : Ty)
  | invoke (kind : CallKind) (owner name descriptor : String)
  | box (ty : Ty)
  | unbox (ty : Ty)
  | newLabel
  | bind (l : Label)
  | goto (l : Label)
  | ifnull (l : Label)
  | ifnonnull (l : Label)
  | returnValue (ty : Ty)

namespace Step

/- Take a step. -/
def run : Step → Emitter Unit
  | .aconstNull => Emitter.aconstNull
  | .iconst n => Emitter.iconst n
  | .lconst n => Emitter.lconst n
  | .fconst x => Emitter.fconst x
  | .dconst x => Emitter.dconst x
  | .ldcString s => Emitter.ldcString s
  | .ldcClass name => Emitter.ldcClass name
  | .load l => Emitter.load l
  | .store l => Emitter.store l
  | .newLocal name ty => discard (Emitter.newLocal name ty)
  | .loadThis => Emitter.loadThis
  | .drop => Emitter.drop
  | .dup => Emitter.dup
  | .swap => Emitter.swap
  | .new name => Emitter.new name
  | .checkcast ty => Emitter.checkcast ty
  | .athrow => Emitter.athrow
  | .getstatic owner name ty => Emitter.getstatic owner name ty
  | .putstatic owner name ty => Emitter.putstatic owner name ty
  | .invoke kind owner name descriptor =>
      Emitter.invoke kind owner name descriptor
  | .box ty => Emitter.box ty
  | .unbox ty => Emitter.unbox ty
  | .newLabel => discard Emitter.newLabel
  | .bind l => Emitter.bind l
  | .goto l => Emitter.goto l
  | .ifnull l => Emitter.ifnull l
  | .ifnonnull l => Emitter.ifnonnull l
  | .returnValue ty => Emitter.returnValue ty

/- Take a step; one that fails leaves what it has done. -/
def apply
    (m : MethodDraft)
    (s : Step) : MethodDraft :=
  (s.run m).2

/- Take steps one after another, whether or not they fail. -/
def runAll
    (steps : List Step)
    (m : MethodDraft) : MethodDraft :=
  steps.foldl apply m

end Step

end Stratagem
