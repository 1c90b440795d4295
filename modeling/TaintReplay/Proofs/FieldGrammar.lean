import TaintReplay.Proofs.SignatureGrammar

/-!
# The grammar of field signatures

A text is a field signature if, but for the blanks around it, it is the text of a layout: the
class between an angle bracket and a colon, blanks, the type, blanks, and the name up to the
closing bracket. The type may have colons and brackets and the class an opening bracket, so the
first sign of a kind need not be the one that ends a part. Still no part may have the sign that
follows it, and a text is the text of one layout at most.

The grammar and the round trip are two views of one condition. The signatures that stand in
layouts are the legible ones, and these are the ones that come back from their written form.

## Main results

* `FieldSignature.Layout.eq_of_render_eq`: a text can be taken apart in one way only.
* `field_signatures_are_read_by_their_grammar`: reading by layouts, with the errors, and which
  signatures come back.
-/

namespace TaintReplay

open Text

namespace FieldSignature

/-- A text can be taken apart in one way only. -/
theorem Layout.eq_of_render_eq {l k : Layout} (h : l.render = k.render) : l = k := by
  have htext := congrArg String.toList h
  rw [toList_render, toList_render] at htext
  obtain ⟨hclass, htext⟩ := l.legible.className.eq_of_append_eq k.legible.className
    (stops_cons rfl _) (stops_cons rfl _) (List.cons.inj htext).2
  obtain ⟨hafter, htext⟩ := l.isRun_afterColon.eq_of_append_eq k.isRun_afterColon
    (l.stops_afterColon _) (k.stops_afterColon _) (List.cons.inj htext).2
  obtain ⟨htype, htext⟩ := l.legible.type.eq_of_append_eq k.legible.type
    (l.stops_type _) (k.stops_type _) htext
  obtain ⟨hbefore, htext⟩ := l.isRun_beforeName.eq_of_append_eq k.isRun_beforeName
    (l.stops_beforeName _) (k.stops_beforeName _) htext
  have hname := String.toList_inj.1 (List.append_cancel_right htext)
  have hsignature : l.signature = k.signature := by
    calc l.signature = ⟨l.signature.className, l.signature.type, l.signature.name⟩ := rfl
      _ = ⟨k.signature.className, k.signature.type, k.signature.name⟩ := by
        rw [hclass, htype, hname]
  exact Layout.ext hsignature hafter hbefore

theorem read?_eq_some_iff {cs : List Char} {f : FieldSignature} :
    read? cs = some f ↔ ∃ l : Layout, l.render.toList = cs ∧ l.signature = f := by
  constructor
  · exact exists_layout_of_read?
  · rintro ⟨l, rfl, rfl⟩
    exact l.read?_render

theorem parse_eq_error_iff {text : String} {e : SignatureError} :
    parse text = .error e ↔ read? (trimChars text.toList) = none ∧ e = .invalidField text := by
  rw [parse]
  cases read? (trimChars text.toList) <;> simp [eq_comm]

end FieldSignature

/-- **Field signatures are read by their grammar.** A text is read as a field signature exactly
if, trimmed, it is the text of a layout, and what is read is the signature of the layout. There
is one layout at most. A text without layout is refused with an error that has it as it was
given. A signature of any texts comes back from its written form exactly if its parts can stand
in a layout. -/
theorem field_signatures_are_read_by_their_grammar :
    (∀ text f, FieldSignature.parse text = .ok f ↔
      ∃ l : FieldSignature.Layout, Trims text l.render ∧ l.signature = f) ∧
    (∀ text (l k : FieldSignature.Layout), Trims text l.render → Trims text k.render → l = k) ∧
    (∀ text e, FieldSignature.parse text = .error e ↔
      (∀ l : FieldSignature.Layout, ¬ Trims text l.render) ∧ e = .invalidField text) ∧
    ∀ f : FieldSignature, FieldSignature.parse f.render = .ok f ↔ f.Legible := by
  refine ⟨fun text f => ?_, fun text l k hl hk => ?_, fun text e => ?_,
    fun f => ⟨FieldSignature.legible_of_parse, fun h => h.parse_render⟩⟩
  · rw [FieldSignature.parse_eq_ok_iff, FieldSignature.read?_eq_some_iff]
    simp only [trims_iff_toList]
  · exact FieldSignature.Layout.eq_of_render_eq ((trims_iff.1 hl).symm.trans (trims_iff.1 hk))
  · rw [FieldSignature.parse_eq_error_iff, Option.eq_none_iff_forall_ne_some]
    refine and_congr_left fun _ => ?_
    simp only [trims_iff_toList, FieldSignature.read?_eq_some_iff, Ne]
    constructor
    · exact fun hnone l hl => hnone _ ⟨l, hl, rfl⟩
    · rintro hall f ⟨l, hl, -⟩
      exact hall l hl

namespace Sample

/-- A field whose class, type and name have signs of the other parts, and other blanks than
spaces between them. -/
def oddField : FieldSignature.Layout where
  signature := ⟨"a.<B", "x:>[]", "<v:("⟩
  afterColon := "\u00a0\t"
  beforeName := "\u2003"
  legible := ⟨by decide +kernel, by decide +kernel, by decide +kernel⟩
  isRun_afterColon := by decide +kernel
  isRun_beforeName := by decide +kernel

/-- A field whose name has a bracket. -/
def bracketedField : FieldSignature := ⟨"a.B", "int", "v>"⟩

/-- The odd field is read from its text with blanks around it, and its signature comes back. A
text without type is refused, and a field whose name has a bracket does not come back. -/
theorem oddField_read :
    Trims ("\u3000" ++ oddField.render ++ "\n") oddField.render ∧
      FieldSignature.parse ("\u3000" ++ oddField.render ++ "\n") = .ok oddField.signature ∧
      FieldSignature.parse oddField.signature.render = .ok oddField.signature ∧
      (∀ l : FieldSignature.Layout, ¬ Trims "<a.B: int>" l.render) ∧
      ¬ FieldSignature.parse bracketedField.render = .ok bracketedField := by
  obtain ⟨hread, -, herror, hback⟩ := field_signatures_are_read_by_their_grammar
  have htrims : Trims ("\u3000" ++ oddField.render ++ "\n") oddField.render :=
    trims_iff.2 (by decide +kernel)
  have hrefused : FieldSignature.parse "<a.B: int>" = .error (.invalidField "<a.B: int>") :=
    FieldSignature.parse_eq_error_iff.2 ⟨by decide +kernel, rfl⟩
  have hname : ¬ IsRun (fun c => c != '>' && !isBlank c) bracketedField.name := by decide +kernel
  exact ⟨htrims, (hread _ _).2 ⟨_, htrims, rfl⟩, (hback _).2 oddField.legible,
    ((herror _ _).1 hrefused).1, fun h => hname ((hback _).1 h).name⟩

end Sample

end TaintReplay
