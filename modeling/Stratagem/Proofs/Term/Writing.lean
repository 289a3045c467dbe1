import Mathlib.Data.List.Forall2
import Stratagem.Proofs.Term.Acceptance
import Stratagem.Proofs.Term.Literals

/-
  Writing and reading are inverse.

  A term is written unless some node of it has no written
  form, and what is written reads back as a term with the
  same payload and the same annotations at every node.  The
  text of a term is derived in the grammar, so that reading
  it is left to the grammar's own theory.

  Key definitions include:
    * `Term.Reaches`
    * `Payload.Unwritable`
    * `Term.Alike`

  Main declarations:
    * `Term.fault?_eq_none_iff`
    * `Term.render_spelled`
    * `Term.read_of_write`
-/

namespace Stratagem

open Grammar

------------------------------------------------------------
-- Nodes without a Written Form
------------------------------------------------------------

/- Subterms, the template and the annotations of a term. -/
def Term.children
    (t : Term) : List Term :=
  t.subterms ++ t.template?.toList ++ t.annotations

/- The nodes of a term, those of its annotations among them. -/
inductive Term.Reaches : Term → Term → Prop where
  | refl
      (t : Term) :
      Reaches t t
  | part
      {t u v : Term}
      (first : u ∈ t.children)
      (others : Reaches u v) :
      Reaches t v

/- What cannot be written, whatever its parts are. -/
def Payload.Unwritable : Payload → Prop
  | .blob _ => True
  | .var _ => True
  | .real value => value.isFinite = false
  | .appl constructor _ =>
      constructor ≠ "" ∧ ¬ Identifier constructor.toList
  | .list _ => False
  | .str _ => False
  | .int _ => False
  | .placeholder _ => False

theorem Payload.nodeFault?_eq_none_iff
    (p : Payload) :
    p.nodeFault? = none ↔ ¬ p.Unwritable := by
  cases p with
  | appl constructor args =>
      have hEmpty : constructor.toList = [] ↔ constructor = "" := by
        simp
      simp only [nodeFault?, Unwritable, ite_eq_left_iff,
        reduceCtorEq, imp_false, not_not, Term.isIdentifier_iff,
        hEmpty, not_and_or]
  | real value => simp [nodeFault?, Unwritable]
  | list => simp [nodeFault?, Unwritable]
  | str => simp [nodeFault?, Unwritable]
  | int => simp [nodeFault?, Unwritable]
  | placeholder => simp [nodeFault?, Unwritable]
  | blob => simp [nodeFault?, Unwritable]
  | var => simp [nodeFault?, Unwritable]

theorem faultIn?_eq_none_iff
    (ts : List Term) :
    faultIn? ts = none ↔ ∀ t ∈ ts, t.fault? = none := by
  induction ts with
  | nil => simp [faultIn?]
  | cons t ts ih =>
      rw [faultIn?, Option.or_eq_none_iff, ih, List.forall_mem_cons,
        and_comm]

/- A term is faultless when the node and its parts are. -/
theorem Term.fault?_step
    (t : Term) :
    t.fault? = none ↔
      ¬ t.payload.Unwritable ∧ ∀ u ∈ t.children, u.fault? = none := by
  rcases t with ⟨p, ⟨notes, others⟩⟩
  have hNotes : Attachments.fault? ⟨notes, others⟩ = none ↔
      ∀ u ∈ notes.getD [], u.fault? = none := by
    cases notes with
    | none => simp [Attachments.fault?]
    | some ts => exact faultIn?_eq_none_iff ts
  have hParts : Payload.fault? p = none ↔
      ∀ u ∈ (Term.mk p ⟨notes, others⟩).subterms ++
        (Term.mk p ⟨notes, others⟩).template?.toList,
        u.fault? = none := by
    cases p with
    | appl constructor args =>
        simp [Payload.fault?, faultIn?_eq_none_iff, subterms,
          template?, payload]
    | list ts =>
        simp [Payload.fault?, faultIn?_eq_none_iff, subterms,
          template?, payload]
    | placeholder t =>
        simp [Payload.fault?, subterms, template?, payload]
    | str => simp [Payload.fault?, subterms, template?, payload]
    | int => simp [Payload.fault?, subterms, template?, payload]
    | real => simp [Payload.fault?, subterms, template?, payload]
    | blob => simp [Payload.fault?, subterms, template?, payload]
    | var => simp [Payload.fault?, subterms, template?, payload]
  rw [Term.fault?, Option.or_eq_none_iff, Option.or_eq_none_iff,
    Payload.nodeFault?_eq_none_iff, hNotes, hParts]
  exact and_congr_right' (and_comm.trans List.forall_mem_append.symm)

theorem Term.sizeOf_lt_of_mem_children
    {t u : Term}
    (hPart : u ∈ t.children) :
    sizeOf u < sizeOf t := by
  rcases t with ⟨p, ⟨notes, others⟩⟩
  rw [children, List.mem_append, List.mem_append] at hPart
  rcases hPart with (hSubterm | hTemplate) | hNote
  · cases p with
    | appl constructor args =>
        have hLess := List.sizeOf_lt_of_mem hSubterm
        simp [subterms, payload] at hLess ⊢
        omega
    | list ts =>
        have hLess := List.sizeOf_lt_of_mem hSubterm
        simp [subterms, payload] at hLess ⊢
        omega
    | _ => cases hSubterm
  · cases p with
    | placeholder t =>
        rw [List.mem_singleton.mp hTemplate]
        simp
        omega
    | _ => cases hTemplate
  · cases notes with
    | none => cases hNote
    | some ts =>
        have hLess := List.sizeOf_lt_of_mem hNote
        simp [annotations, attachments, Attachments.annotations]
          at hLess ⊢
        omega

theorem Term.fault?_of_reaches
    {t u : Term}
    (hNone : t.fault? = none)
    (hReaches : t.Reaches u) :
    ¬ u.payload.Unwritable := by
  induction hReaches with
  | refl t => exact ((fault?_step t).mp hNone).1
  | part hPart _ ih =>
      exact ih (((fault?_step _).mp hNone).2 _ hPart)

/- A term is faultless when all its nodes can be written. -/
theorem Term.fault?_eq_none_iff
    (t : Term) :
    t.fault? = none ↔
      ∀ u, t.Reaches u → ¬ u.payload.Unwritable := by
  constructor
  · intro hNone u hReaches
    exact fault?_of_reaches hNone hReaches
  · intro hAll
    rw [fault?_step]
    refine ⟨hAll t (.refl t), ?_⟩
    intro u hPart
    rw [fault?_eq_none_iff u]
    intro v hReaches
    exact hAll v (.part hPart hReaches)
termination_by sizeOf t
decreasing_by exact sizeOf_lt_of_mem_children hPart

------------------------------------------------------------
-- Terms Alike
------------------------------------------------------------

mutual

/-
  The same payload and the same annotations at every node;
  what else is attached does not matter.
-/
inductive Term.Alike : Term → Term → Prop where
  | mk
      {t u : Term}
      (payload : Payload.Alike t.payload u.payload)
      (annotations :
        List.Forall₂ Term.Alike t.annotations u.annotations) :
      Term.Alike t u

inductive Payload.Alike : Payload → Payload → Prop where
  | appl
      {constructor : String}
      {ts us : List Term}
      (args : List.Forall₂ Term.Alike ts us) :
      Payload.Alike (.appl constructor ts) (.appl constructor us)
  | list
      {ts us : List Term}
      (elements : List.Forall₂ Term.Alike ts us) :
      Payload.Alike (.list ts) (.list us)
  | placeholder
      {t u : Term}
      (template : Term.Alike t u) :
      Payload.Alike (.placeholder t) (.placeholder u)
  | str
      (value : String) :
      Payload.Alike (.str value) (.str value)
  | int
      (value : Int64) :
      Payload.Alike (.int value) (.int value)
  | real
      (value : Binary64) :
      Payload.Alike (.real value) (.real value)
  | blob
      (id : Nat) :
      Payload.Alike (.blob id) (.blob id)
  | var
      (name : String) :
      Payload.Alike (.var name) (.var name)

end

------------------------------------------------------------
-- Texts of Terms
------------------------------------------------------------

theorem Grammar.blanks_space : Blanks [' '] :=
  fun _ hMember => List.mem_singleton.mp hMember ▸ rfl

theorem Term.alike_annotated
    {p q : Payload}
    {a : Attachments}
    {us : List Term}
    (hPayload : p.Alike q)
    (hNotes : List.Forall₂ Term.Alike (a.annotations.getD []) us) :
    (Term.mk p a).Alike ((Term.plain q).annotated us) := by
  refine Term.Alike.mk hPayload ?_
  cases us with
  | nil => exact hNotes
  | cons u us => exact hNotes

mutual

/- The text of a faultless term spells a term like it. -/
theorem Term.render_spelled
    (t : Term)
    (hNone : t.fault? = none) :
    ∃ u, Spells t.render u ∧ t.Alike u := by
  match t with
  | .mk p a =>
      rw [Term.fault?, Option.or_eq_none_iff,
        Option.or_eq_none_iff] at hNone
      rcases hNone with ⟨hNode, hNotes, hParts⟩
      rcases Payload.render_spelled p hNode hParts with
        ⟨p', hCore, hPayload⟩
      match a with
      | .mk (some (v :: vs)) _ =>
          rcases renderTerms_spelled (v :: vs) hNotes with
            ⟨ws, hTerms, hAlike⟩
          refine ⟨(Term.plain p').annotated ws, ?_, ?_⟩
          · exact .annotated blanks_nil hCore blanks_nil hTerms
              blanks_nil
          · exact Term.alike_annotated hPayload hAlike
      | .mk (some []) _ =>
          refine ⟨(Term.plain p').annotated [], ?_,
            Term.alike_annotated hPayload .nil⟩
          simp only [Term.render, Attachments.render, List.append_nil]
          exact .plain blanks_nil hCore
      | .mk none _ =>
          refine ⟨(Term.plain p').annotated [], ?_,
            Term.alike_annotated hPayload .nil⟩
          simp only [Term.render, Attachments.render, List.append_nil]
          exact .plain blanks_nil hCore

theorem Payload.render_spelled
    (p : Payload)
    (hNode : p.nodeFault? = none)
    (hParts : p.fault? = none) :
    ∃ p', SpellsCore p.render p' ∧ p.Alike p' := by
  rw [Payload.nodeFault?_eq_none_iff] at hNode
  match p with
  | .appl constructor args =>
      rcases renderTerms_spelled args hParts with
        ⟨us, hTerms, hAlike⟩
      refine ⟨.appl constructor us, ?_, .appl hAlike⟩
      by_cases hEmpty : constructor = ""
      · rw [hEmpty]
        exact .tuple hTerms blanks_nil
      · have hName : Identifier constructor.toList :=
          not_not.mp fun hNot => hNode ⟨hEmpty, hNot⟩
        have hCore :=
          SpellsCore.application hName blanks_nil hTerms blanks_nil
        rw [String.ofList_toList] at hCore
        change SpellsCore
          (constructor.toList ++ '(' :: renderTerms args ++ [')']) _
        rw [List.append_assoc]
        exact hCore
  | .list elements =>
      rcases renderTerms_spelled elements hParts with
        ⟨us, hTerms, hAlike⟩
      exact ⟨.list us, .list hTerms blanks_nil, .list hAlike⟩
  | .str value =>
      have hCore := SpellsCore.string
        (Term.quoted_flatMap_escapeChar value.toList)
      rw [String.ofList_toList] at hCore
      exact ⟨.str value, hCore, .str value⟩
  | .int value =>
      rcases Term.renderInt_spelled value with
        ⟨x, hLegal, hDenotes, hText⟩
      refine ⟨.int value, ?_, .int value⟩
      change SpellsCore (Term.renderInt value) _
      rw [← hText]
      exact .number hLegal hDenotes
  | .real value =>
      have hFinite : value.isFinite = true :=
        Bool.not_eq_false _ ▸ hNode
      rcases Term.renderReal_spelled hFinite with
        ⟨x, hLegal, hDenotes, hText⟩
      refine ⟨.real value, ?_, .real value⟩
      change SpellsCore (Term.renderReal value) _
      rw [← hText]
      exact .number hLegal hDenotes
  | .placeholder template =>
      rcases Term.render_spelled template hParts with
        ⟨u, hTemplate, hAlike⟩
      exact ⟨.placeholder u, .placeholder hTemplate blanks_nil,
        .placeholder hAlike⟩
  | .blob _ => exact absurd trivial hNode
  | .var _ => exact absurd trivial hNode

theorem renderTerms_spelled
    (ts : List Term)
    (hNone : faultIn? ts = none) :
    ∃ us, SpellsTerms (renderTerms ts) us ∧
      List.Forall₂ Term.Alike ts us := by
  match ts with
  | [] => exact ⟨[], .none, .nil⟩
  | t :: ts =>
      rw [faultIn?, Option.or_eq_none_iff] at hNone
      rcases Term.render_spelled t hNone.2 with ⟨u, hFirst, hAlike⟩
      rcases renderMore_spelled ts hNone.1 hFirst with
        ⟨us, hSome, hOthers⟩
      exact ⟨u :: us, .some hSome, .cons hAlike hOthers⟩

/- The terms behind a first one, whatever spells that. -/
theorem renderMore_spelled
    {cs : List Char}
    {u : Term}
    (ts : List Term)
    (hNone : faultIn? ts = none)
    (hFirst : Spells cs u) :
    ∃ us, SpellsSome (cs ++ renderMore ts) (u :: us) ∧
      List.Forall₂ Term.Alike ts us := by
  match ts with
  | [] =>
      refine ⟨[], ?_, .nil⟩
      rw [renderMore, List.append_nil]
      exact .one hFirst
  | t :: ts =>
      rw [faultIn?, Option.or_eq_none_iff] at hNone
      rcases Term.render_spelled t hNone.2 with ⟨v, hNext, hAlike⟩
      rcases renderMore_spelled ts hNone.1
        (hNext.blanks_append blanks_space) with ⟨us, hSome, hOthers⟩
      exact ⟨v :: us, .more hFirst blanks_nil hSome,
        .cons hAlike hOthers⟩

end

------------------------------------------------------------
-- Writing and Reading
------------------------------------------------------------

/- What is written is the text of the term. -/
theorem Term.write_eq_ok
    {t : Term}
    (hNone : t.fault? = none) :
    t.write = .ok t.display := by
  unfold write
  rw [hNone]

/- What is written has no node without a written form. -/
theorem Term.write_isOk_iff
    (t : Term) :
    (∃ s, t.write = .ok s) ↔
      ∀ u, t.Reaches u → ¬ u.payload.Unwritable := by
  rw [← fault?_eq_none_iff]
  constructor
  · rintro ⟨s, hWrite⟩
    unfold write at hWrite
    split at hWrite
    case h_1 => cases hWrite
    case h_2 hNone => exact hNone
  · intro hNone
    exact ⟨t.display, write_eq_ok hNone⟩

/- What is written reads back as a term like the one written. -/
theorem Term.read_of_write
    {t : Term}
    {s : String}
    (hWrite : t.write = .ok s) :
    ∃ u, Term.read s = .ok u ∧ t.Alike u := by
  have hNone : t.fault? = none := by
    rw [fault?_eq_none_iff, ← write_isOk_iff]
    exact ⟨s, hWrite⟩
  rw [write_eq_ok hNone] at hWrite
  injection hWrite with hText
  rcases render_spelled t hNone with ⟨u, hSpells, hAlike⟩
  refine ⟨u, read_of_spellsText ?_, hAlike⟩
  rw [← hText, display, String.toList_ofList,
    ← List.append_nil t.render]
  exact .mk hSpells blanks_nil

/-
  A term is written exactly when all its nodes have a written
  form, and then reading gives the same payload and the same
  annotations at every node.
-/
theorem Term.write_inverse
    (t : Term) :
    ((∃ s, t.write = .ok s) ↔
      ∀ u, t.Reaches u → ¬ u.payload.Unwritable) ∧
    ∀ s, t.write = .ok s →
      ∃ u, Term.read s = .ok u ∧ t.Alike u :=
  ⟨t.write_isOk_iff, fun _ hWrite => read_of_write hWrite⟩

/-
  A tuple of a tenth, a string with a control character and a
  placeholder around minus one, with an annotation that is
  annotated itself.
-/
def annotatedSample : Term :=
  let noted := (Term.appl "-" []).annotated [Term.appl "a1" []]
  (Term.appl ""
    [.plain (.real ⟨0x3fb999999999999a⟩),
      .plain (.list [.plain (.str "\x7f\"")]),
      .plain (.placeholder (.plain (.int (-1))))]).annotated [noted]

theorem annotatedSample_written :
    ∃ s u, annotatedSample.write = .ok s ∧ Term.read s = .ok u ∧
      annotatedSample.Alike u := by
  have hWrite := Term.write_eq_ok
    (show annotatedSample.fault? = none by decide +kernel)
  rcases (Term.write_inverse annotatedSample).2 _ hWrite with
    ⟨u, hRead, hAlike⟩
  exact ⟨_, u, hWrite, hRead, hAlike⟩

end Stratagem
