import StatVars.Proofs.JsonString
import StatVars.Proofs.Pass

/-!
# Arguments that can stand in a list

An argument is self-contained if a scan of it closes every string and every bracket that it opens
and meets neither a comma nor the start of a statement outside of them. The search for statements
counts brackets of each kind, the splitting of arguments counts them together; a self-contained
argument leaves both where they were. Main statement: `Statement.splitArguments_of_selfContained`.
-/

namespace StatVars

open Extraction.Scan

/-- The text is self-contained from a point on, where `before` is the character before it, `quote`
the quote that encloses it and the depth counts the brackets that do. -/
inductive SelfContained : (before quote : Option Char) → Depth → List Char → Prop
  | done {b} : SelfContained b none {} []
  | escaped {b q d e s} (h : SelfContained (some e) (some q) d s) :
      SelfContained b (some q) d ('\\' :: e :: s)
  | quoted {b q d c s} (hescape : c ≠ '\\') (hline : c ≠ '\n')
      (h : SelfContained (some c) (if c = q then none else some q) d s) :
      SelfContained b (some q) d (c :: s)
  | quote {b d c s} (hc : Text.isQuote c) (h : SelfContained (some c) (some c) d s) :
      SelfContained b none d (c :: s)
  | plain {b d c s} (hc : Text.isQuote c = false) (hstart : c = '_' → opening? b s = none)
      (hcomma : c = ',' → d ≠ {}) (hd : (d.past c).isBelow {} = false)
      (h : SelfContained (some c) none (d.past c) s) : SelfContained b none d (c :: s)

namespace SelfContained

variable {b b' q : Option Char} {d : Depth} {a s : List Char}

/-- The character before does not matter unless a verb could go on behind it. -/
theorem of_before (h : SelfContained b none d a) (hb : b.any inVerb = b'.any inVerb) :
    SelfContained b' none d a := by
  cases h with
  | done => exact .done
  | quote hc h => exact .quote hc h
  | plain hc hstart hcomma hd h =>
    refine .plain hc (fun hc => ?_) hcomma hd h
    rw [← hstart hc]
    simp only [opening?, hb]

theorem blanks (h : SelfContained none none {} a) (hb : b.any inVerb = false) (n : Nat) :
    SelfContained b none {} (List.replicate n ' ' ++ a) := by
  induction n generalizing b with
  | zero => exact h.of_before hb.symm
  | succ n ih => exact .plain rfl nofun nofun rfl (ih rfl)

/-- A text that is written as a string is self-contained. -/
theorem writeString (b : Option Char) (s : List Char) :
    SelfContained b none {} (Json.writeString s) := by
  have hstep {b : Option Char} {c : Char} {t : List Char} (hescape : c ≠ '\\') (hline : c ≠ '\n')
      (hquote : c ≠ '"') (h : SelfContained (some c) (some '"') {} t) :
      SelfContained b (some '"') {} (c :: t) :=
    .quoted hescape hline (by rw [if_neg hquote]; exact h)
  have hbody (s : List Char) (b : Option Char) :
      SelfContained b (some '"') {} (s.flatMap Json.escape ++ ['"']) := by
    induction s generalizing b with
    | nil => exact .quoted (by decide) (by decide) .done
    | cons c s ih =>
      rw [List.flatMap_cons, List.append_assoc]
      obtain ⟨e, he, -, -⟩ | ⟨hlt, hc⟩ | ⟨hc, hle, hq, hb⟩ := Json.escape_cases c
      · rw [he]
        exact .escaped (ih _)
      · obtain ⟨⟨h1, h2, h3⟩, ⟨h4, h5, h6⟩, ⟨h7, h8, h9⟩, ⟨h10, h11, h12⟩, -⟩ := by
          simpa only [Json.controlDigits, List.forall_mem_cons] using
            Json.ne_of_mem_controlDigits hlt
        rw [hc]
        exact .escaped (hstep h1 h2 h3 (hstep h4 h5 h6 (hstep h7 h8 h9 (hstep h10 h11 h12 (ih _)))))
      · rw [hc]
        refine hstep hb (fun hline => ?_) hq (ih _)
        subst hline
        exact absurd hle (by decide)
  exact .quote rfl (hbody s _)

end SelfContained

/-! ## Depths -/

namespace Depth

variable {d : Depth} {c : Char}

/-- The number of open brackets of all kinds. -/
def total (d : Depth) : Int :=
  d.paren + d.brace + d.bracket

theorem total_past (d : Depth) (c : Char) : (d.past c).total = d.total + Statement.nesting c := by
  unfold past Statement.nesting total
  repeat' split
  all_goals simp_all
  all_goals omega

/-- Where no bracket is closed too much, the total is that of the outside only there. -/
theorem total_eq_zero_iff (hd : d.isBelow {} = false) : d.total = 0 ↔ d = {} := by
  obtain ⟨h1, h2, h3⟩ := not_isBelow_iff.1 hd
  obtain ⟨paren, brace, bracket⟩ := d
  simp only [total, mk.injEq] at *
  omega

end Depth

/-! ## Splitting -/

namespace Statement

variable {depth : Int} {c d q : Char} {s : List Char}

theorem splitCommas_none (depth : Int) (c : Char) (s : List Char) :
    splitCommas none depth (c :: s) =
      if Text.isQuote c then putFirst c (splitCommas (some c) depth s)
      else if c = ',' ∧ depth = 0 then [] :: splitCommas none depth s
      else putFirst c (splitCommas none (depth + nesting c) s) := by
  cases s with
  | nil =>
    have hquote : Text.isQuote c → c ≠ ',' := by
      rintro h rfl
      cases h
    by_cases hc : Text.isQuote c <;> simp [splitCommas, hc, hquote, putFirst]
  | cons d s => simp [splitCommas]

theorem splitCommas_quote (hc : Text.isQuote c) :
    splitCommas none depth (c :: s) = putFirst c (splitCommas (some c) depth s) := by
  rw [splitCommas_none, if_pos hc]

theorem splitCommas_comma : splitCommas none 0 (',' :: s) = [] :: splitCommas none 0 s := by
  rw [splitCommas_none, if_neg (by decide), if_pos ⟨rfl, rfl⟩]

theorem splitCommas_plain (hc : Text.isQuote c = false) (hcomma : c = ',' → depth ≠ 0) :
    splitCommas none depth (c :: s) =
      putFirst c (splitCommas none (depth + nesting c) s) := by
  rw [splitCommas_none, if_neg (Bool.eq_false_iff.1 hc), if_neg fun h => hcomma h.1 h.2]

theorem splitCommas_quoted (hescape : c ≠ '\\') :
    splitCommas (some q) depth (c :: s) =
      putFirst c (splitCommas (if c = q then none else some q) depth s) := by
  cases s with
  | nil => simp [splitCommas, putFirst]
  | cons d s => simp [splitCommas, hescape]

theorem splitCommas_escaped :
    splitCommas (some q) depth ('\\' :: d :: s) =
      putFirst '\\' (putFirst d (splitCommas (some q) depth s)) := by
  simp [splitCommas]

/-- A self-contained text goes to the first part as a whole. -/
theorem splitCommas_append {b q : Option Char} {d : Depth} {a : List Char}
    (h : SelfContained b q d a) (hd : d.isBelow {} = false) (t : List Char) :
    splitCommas q d.total (a ++ t) = a.foldr putFirst (splitCommas none 0 t) := by
  induction h with
  | done => rfl
  | escaped h ih => rw [List.cons_append, List.cons_append, splitCommas_escaped, ih hd]; rfl
  | quoted hescape hline h ih => rw [List.cons_append, splitCommas_quoted hescape, ih hd]; rfl
  | quote hc h ih => rw [List.cons_append, splitCommas_quote hc, ih hd]; rfl
  | @plain b d c s hc hstart hcomma hpast h ih =>
    have hcomma : c = ',' → d.total ≠ 0 := fun hc htotal =>
      hcomma hc ((Depth.total_eq_zero_iff hd).1 htotal)
    rw [List.cons_append, splitCommas_plain hc hcomma, ← Depth.total_past, ih hpast]
    rfl

theorem foldr_putFirst (a part : List Char) (parts : List (List Char)) :
    a.foldr putFirst (part :: parts) = (a ++ part) :: parts := by
  induction a with
  | nil => rfl
  | cons c a ih => rw [List.foldr_cons, ih]; rfl

theorem splitCommas_join {first : List Char} {rest : List (List Char)}
    (h : ∀ a ∈ first :: rest, ∃ b, SelfContained b none {} a) :
    splitCommas none 0 (first ++ rest.flatMap (',' :: ·)) = first :: rest := by
  induction rest generalizing first with
  | nil =>
    obtain ⟨b, hfirst⟩ := h first (.head _)
    have hsplit := splitCommas_append hfirst rfl []
    rw [splitCommas, foldr_putFirst, List.append_nil] at hsplit
    rw [List.flatMap_nil, List.append_nil]
    exact hsplit
  | cons a rest ih =>
    obtain ⟨⟨b, hfirst⟩, hrest⟩ := List.forall_mem_cons.1 h
    have hsplit := splitCommas_append hfirst rfl (',' :: (a ++ rest.flatMap (',' :: ·)))
    rw [splitCommas_comma, ih hrest, foldr_putFirst, List.append_nil] at hsplit
    rw [List.flatMap_cons, List.cons_append]
    exact hsplit

/-- **Self-contained arguments between commas are split as they were joined.** -/
theorem splitArguments_of_selfContained {first : List Char} {rest : List (List Char)}
    (h : ∀ a ∈ first :: rest, ∃ b, SelfContained b none {} a)
    (hfirst : first.all Text.isBlank = false) :
    splitArguments (first ++ rest.flatMap (',' :: ·)) =
      (first :: rest).map fun a => .ofList (Text.trim a) := by
  rw [splitArguments, if_neg (by simp [hfirst]), splitCommas_join h]

end Statement

end StatVars
