import StatVars.Proofs.Composition

/-!
# Strings that do not end with their line

A line end inside of a string gives up all that is open, and the search goes on behind it as at the
start of a text. So a string that is not closed costs its own line at most, and no string of a
statement goes on to the next line. A backslash takes a line end along like any other character:
where one stands at the end of a line, neither holds. Main statement:
`Extraction.lost_line`.
-/

namespace StatVars

namespace Extraction

variable {options : Options} {text rest args l r : List Char} {c : Char} {o : Opened}

/-- The text ends inside of a string of an open statement, and not directly behind a backslash that
takes the next character along. -/
structure EndsInString (options : Options) (text : List Char) : Prop where
  opened : (final options text).stack ≠ []
  quoted : (final options text).quote ≠ none
  unescaped : (final options text).resume ≤ (final options text).position

/-! ## The end of the line -/

/-- What has been found when a line end gives up what is open. -/
def atLineEnd (options : Options) (text : List Char) : Extraction :=
  (Scan.abandon options (final options text) (Text.byteLength text) .unclosedString).found

theorem changed_atLineEnd (options : Options) (text : List Char) :
    Scan.Changed options (final options text) []
      (Scan.abandon options (final options text) (Text.byteLength text) .unclosedString) := by
  rw [Scan.abandon_eq]
  exact .abandoned _ _ .unclosedString (fun _ => List.mem_reverse) (position_final options text).le
    nofun rfl rfl rfl

theorem startsBefore_atLineEnd (options : Options) (text : List Char) :
    (atLineEnd options text).StartsBefore (Text.byteLength text) := by
  have hpass := stands_final options text
  rw [← position_final options text]
  exact (changed_atLineEnd options text).startsBefore hpass.ordered hpass.startsBefore

theorem statements_atLineEnd (options : Options) (text : List Char) :
    (atLineEnd options text).statements = (atEnd options text).statements := by
  rw [atLineEnd, Scan.abandon_eq]
  rfl

/-- The pass behind the end of the line goes on as at the start. -/
theorem idle_line (hwhole : Whole options l) (hwhole' : Whole options (l ++ '\n' :: r))
    (hend : EndsInString options l) : ∃ st, final options (l ++ '\n' :: r) = Scan.run options r st ∧
      st.Idle ∧ st.position = Text.byteLength l + 1 ∧ st.found = atLineEnd options l := by
  obtain ⟨st, hrun, hst⟩ := final_append hwhole hwhole' (.inr rfl)
  obtain ⟨q, hq⟩ := Option.ne_none_iff_exists'.1 hend.quoted
  have hquote : st.quote = some q := by
    rw [hst.moved]
    exact hq
  have hskips : st.skips = [] := by
    rw [hst.moved]
    exact hst.skips
  have hresume : st.resume ≤ st.position := by
    have hresume := hst.resume
    have := hend.unescaped
    omega
  have hfound : (Scan.abandon options { st with quote := none } st.position
      .unclosedString).found = atLineEnd options l := by
    have hpart := hst.found_abandon options (Text.byteLength l) .unclosedString
    rw [empty_append, shift_zero, Scan.abandon_eq] at hpart
    rw [Scan.abandon_eq, hst.position_eq, position_final]
    exact hpart
  rw [Scan.run_cons, Scan.step_eq st hresume, (Scan.Visited.line hquote rfl).eq] at hrun
  refine ⟨_, hrun, ?_, ?_, hfound⟩
  · rw [Scan.abandon_eq]
    exact ⟨hskips, rfl, rfl, rfl, rfl, Nat.le_add_right_of_le hresume, rfl⟩
  · exact congrArg (· + 1) (hst.position_eq.trans (position_final options l))

theorem ofChars_line (hwhole : Whole options l) (hwhole' : Whole options (l ++ '\n' :: r))
    (hend : EndsInString options l) : (ofChars options (l ++ '\n' :: r)).statements =
      (ofChars options l).statements ++
        ((ofWhole options r).shift (Text.byteLength l + 1)).statements := by
  obtain ⟨st, hrun, hidle, hposition, hfound⟩ := idle_line hwhole hwhole' hend
  have hbefore : st.found.StartsBefore st.position := by
    rw [hfound, hposition]
    exact (startsBefore_atLineEnd options l).mono (Nat.le_succ _)
  have hlength : Text.byteLength (l ++ '\n' :: r) = Text.byteLength r + st.position := by
    have hmark : ('\n' : Char).utf8Size = 1 := rfl
    rw [hposition, Text.byteLength_append, Text.byteLength_cons, hmark]
    omega
  have hsorted := hidle.sorted_eq hbefore options r
  rw [← hrun, ← hlength, hposition, hfound] at hsorted
  have hstatements := congrArg Extraction.statements hsorted
  refine hstatements.trans (congrArg (· ++ _) ?_)
  rw [ofChars_eq]
  exact congrArg (List.mergeSort · _) (statements_atLineEnd options l)

/-! ## Line ends within arguments -/

/-- A line ends within a string of the arguments only directly behind a backslash. -/
def LinesEscaped (args : List Char) : Prop :=
  ∀ a, a ++ ['\n'] <+: args → (Reading.behind a).quote ≠ none → (Reading.behind a).escaped

namespace LinesEscaped

variable {a b : List Char}

theorem nil : LinesEscaped [] := by
  intro a ha
  simp at ha

theorem concat (h : LinesEscaped a) (hc : c = '\n' → (Reading.behind a).quote ≠ none →
    (Reading.behind a).escaped) : LinesEscaped (a ++ [c]) := by
  intro b hb
  obtain hb | hb := List.prefix_concat_iff.1 hb
  · obtain ⟨rfl, hline⟩ := List.append_inj' hb rfl
    exact hc (List.head_eq_of_cons_eq hline).symm
  · exact h b hb

/-- A part without line ends. -/
theorem append (h : LinesEscaped a) (hb : '\n' ∉ b) : LinesEscaped (a ++ b) := by
  induction b using List.reverseRecOn with
  | nil => rwa [List.append_nil]
  | append_singleton b c ih =>
    rw [List.mem_append, not_or, List.mem_singleton] at hb
    rw [← List.append_assoc]
    exact (ih hb.1).concat fun hc => absurd hc.symm hb.2

end LinesEscaped

/-- In what has been read of the arguments, up to the text ahead, lines end within strings only
behind a backslash. -/
def Opened.LinesRead (o : Opened) (ahead : List Char) : Prop :=
  ∀ a, o.args = a ++ ahead → ahead ≠ [] → LinesEscaped a

theorem Opened.linesRead_of_eq {a ahead : List Char} (hargs : o.args = a ++ ahead)
    (h : LinesEscaped a) : o.LinesRead ahead := by
  intro b hb _
  rw [hargs] at hb
  rwa [← List.append_cancel_right hb]

namespace Scan

variable {st st' : Scan}

/-- In what has been read of each opened statement, lines end within strings only behind a
backslash. -/
def LinesRead (st : Scan) (rest : List Char) : Prop :=
  ∀ o ∈ st.stack, o.LinesRead (st.ahead rest)

namespace LinesRead

theorem skip (h : st.LinesRead (c :: rest)) (hresume : st.position < st.resume) :
    (st.advance st.position c).LinesRead rest := by
  unfold LinesRead
  rw [ahead_skip hresume]
  exact h

theorem of_subset {ahead : List Char} (hahead : (st'.advance st.position c).ahead rest = ahead)
    (hsub : st'.stack ⊆ st.stack) (hread : ∀ o ∈ st.stack, o.LinesRead ahead) :
    (st'.advance st.position c).LinesRead rest := by
  intro o ho
  rw [hahead]
  exact hread o (hsub ho)

theorem of_nil (h : st'.stack = []) : (st'.advance st.position c).LinesRead rest := by
  intro o ho
  rw [show (st'.advance st.position c).stack = [] from h] at ho
  cases ho

section

variable (h : st.LinesRead (c :: rest)) (hpass : Stands options text st (c :: rest))
  (hresume : st.resume ≤ st.position)

include h hpass hresume

/-- What has been read in front of the character that the search looks at. -/
theorem exists_read (ho : o ∈ st.stack) : ∃ a d, o.args = a ++ c :: rest ∧ LinesEscaped a ∧
    Reading.behind a = ⟨st.quote, false, d⟩ := by
  have hread := (hpass.traced.opened o ho).2
  have hlines := h o ho
  rw [ahead_eq hresume] at hread hlines
  obtain ⟨a, hargs, -, hbehind⟩ := hread (by simp)
  exact ⟨a, _, hargs, hlines a hargs (by simp), hbehind⟩

/-- The search goes on behind the character, which ends no line within a string. -/
theorem next (hc : c = '\n' → st.quote = none) (ho : o ∈ st.stack) : o.LinesRead rest := by
  obtain ⟨a, d, hargs, hlines, hbehind⟩ := h.exists_read hpass hresume ho
  have hargs' : o.args = (a ++ [c]) ++ rest := by simp [hargs]
  refine Opened.linesRead_of_eq hargs' (hlines.concat fun hline hne => ?_)
  rw [hbehind] at hne
  exact absurd (hc hline) hne

/-- The search goes on behind the character that a backslash takes along. -/
theorem escape (hc : c = '\\') {q : Char} (hquote : st.quote = some q) (ho : o ∈ st.stack) :
    o.LinesRead (Text.dropBytes 1 rest) := by
  cases rest with
  | nil => exact fun _ _ hne => absurd rfl hne
  | cons e rest =>
    obtain ⟨a, d, hargs, hlines, hbehind⟩ := h.exists_read hpass hresume ho
    have hslash : Reading.behind (a ++ [c]) = ⟨some q, true, d⟩ := by
      rw [Reading.behind_concat, hbehind, hquote, hc]
      rfl
    have hargs' : o.args = (a ++ [c] ++ [e]) ++ rest := by simp [hargs]
    have hline : LinesEscaped (a ++ [c]) := hlines.concat fun hline => by simp [hc] at hline
    rw [Text.dropBytes_one]
    refine Opened.linesRead_of_eq hargs' (hline.concat fun _ _ => ?_)
    rw [hslash]

/-- A statement that starts within others. -/
theorem enter {skips : List Span} {verb args : List Char} (hc : c = '_')
    (hopen : opening? st.before rest = some (verb, args)) :
    ((Scan.enter { st with skips := skips } verb args).advance st.position c).LinesRead rest := by
  obtain ⟨rfl, hverb⟩ := opening?_eq_some hopen
  subst hc
  have hline : '\n' ∉ '_' :: '.' :: (verb ++ ['(']) := by
    intro hmem
    obtain hmem | hmem : '\n' ∈ ['_', '.', '('] ∨ '\n' ∈ verb := by
      simp at hmem
      exact .inr hmem
    · simp at hmem
    · exact absurd (hverb _ hmem) (by decide)
  intro o ho
  rw [ahead_enter hverb args]
  obtain rfl | ho := List.mem_cons.1 ho
  · exact Opened.linesRead_of_eq (a := []) rfl .nil
  · obtain ⟨a, d, hargs, hlines, -⟩ := h.exists_read hpass hresume ho
    have hargs' : o.args = (a ++ '_' :: '.' :: (verb ++ ['('])) ++ args := by simp [hargs]
    exact Opened.linesRead_of_eq hargs' (hlines.append hline)

theorem visited (hvisit : Visited options st c rest st') :
    (st'.advance st.position c).LinesRead rest := by
  have hahead : (st.advance st.position c).ahead rest = rest :=
    ahead_eq (Nat.le_add_right_of_le hresume)
  cases hvisit with
  | escape hquote hc =>
    subst hc
    exact of_subset ahead_escape (List.Subset.refl _)
      fun o ho => h.escape hpass hresume rfl hquote ho
  | line =>
    rw [abandon_eq]
    exact of_nil rfl
  | leap _ hstack | prose _ hstack => exact of_nil hstack
  | passAll | complete => exact of_nil rfl
  | quoted _ _ hline =>
    exact of_subset hahead (List.Subset.refl _)
      fun o ho => h.next hpass hresume (fun hc => absurd hc hline) ho
  | quote hquote | plain hquote =>
    exact of_subset hahead (List.Subset.refl _)
      fun o ho => h.next hpass hresume (fun _ => hquote) ho
  | @pass inner o outer hquote _ hstack =>
    refine of_subset hahead ?_ fun o ho => h.next hpass hresume (fun _ => hquote) ho
    rw [hstack]
    exact List.subset_append_right ..
  | @wait inner o outer hquote _ hstack =>
    refine of_subset hahead ?_ fun o ho => h.next hpass hresume (fun _ => hquote) ho
    rw [hstack]
    exact fun p hp => List.mem_append_right _ (List.mem_cons_of_mem _ hp)
  | enter _ hc hopen => exact h.enter hpass hresume hc hopen

theorem closedAt (ho : o ∈ st.stack) : LinesEscaped (Opened.closedAt o st.position rest).args := by
  obtain ⟨a, d, hargs, hlines, -⟩ := h.exists_read hpass hresume ho
  obtain ⟨passed, htext, hposition⟩ := hpass.exists_passed
  rw [Opened.closedAt_eq (hpass.traced.opened o ho).1 hargs htext hposition]
  exact hlines

end

end LinesRead

theorem Stands.linesRead (h : Stands options text st rest) : st.LinesRead rest :=
  invariant (P := fun st rest => st.LinesRead rest) nofun (fun _ _ _ hresume h => h.skip hresume)
    (fun _ _ _ _ hpass hresume hvisit h => h.visited hpass hresume hvisit) h

/-- Each statement is a part of the text, and lines end within its strings only behind a
backslash. -/
def FoundLined (text : List Char) (found : Extraction) : Prop :=
  ∀ s ∈ found.statements, ∃ k : Closed, k.StandsIn text ∧ LinesEscaped k.args ∧ k.statement = s

theorem FoundLined.add {found : Extraction} {ks : List Closed} (h : FoundLined text found)
    (hks : ∀ k ∈ ks, k.StandsIn text ∧ LinesEscaped k.args) :
    FoundLined text (found.add options ks) := by
  intro s hs
  obtain hs | ⟨k, hk, -, rfl⟩ := mem_statements_add.1 hs
  · exact h s hs
  · exact ⟨k, (hks k hk).1, (hks k hk).2, rfl⟩

/-- Lines end within the strings of what waits and of what has been found only behind a
backslash. -/
structure Lined (text : List Char) (st : Scan) : Prop where
  pending : ∀ k ∈ st.pending, k.StandsIn text ∧ LinesEscaped k.args
  found : FoundLined text st.found

theorem Lined.visited (h : st.Lined text) (hpass : Stands options text st (c :: rest))
    (hresume : st.resume ≤ st.position) (hvisit : Visited options st c rest st') :
    (st'.advance st.position c).Lined text := by
  have hclosed {inner outer : List Opened} {o : Opened} (hquote : st.quote = none)
      (hclose : Depth.isClosing c) (hstack : st.stack = inner ++ o :: outer)
      (ho : st.depth.past c = o.base) : (Opened.closedAt o st.position rest).StandsIn text ∧
        LinesEscaped (Opened.closedAt o st.position rest).args :=
    ⟨hpass.traced.closed hpass hresume hquote hclose hstack ho,
      hpass.linesRead.closedAt hpass hresume (by simp [hstack])⟩
  have hpending : ∀ k ∈ st.pending.reverse, k.StandsIn text ∧ LinesEscaped k.args :=
    fun k hk => h.pending k (List.mem_reverse.1 hk)
  cases hvisit with
  | escape | quoted | leap | prose | enter | quote | plain | pass => exact ⟨h.pending, h.found⟩
  | line =>
    rw [abandon_eq]
    exact ⟨nofun, FoundLined.add h.found hpending⟩
  | passAll => exact ⟨nofun, FoundLined.add h.found hpending⟩
  | wait hquote hclose hstack houter hinner ho =>
    refine ⟨List.forall_mem_cons.2 ⟨hclosed hquote hclose hstack ho, fun k hk => ?_⟩, h.found⟩
    exact h.pending k (outside_subset _ hk)
  | complete hquote hclose hstack hinner ho =>
    refine ⟨nofun, FoundLined.add h.found (List.forall_mem_append.2 ⟨fun k hk => ?_, ?_⟩)⟩
    · exact h.pending k (outside_subset _ (List.mem_reverse.1 hk))
    · exact List.forall_mem_singleton.2 (hclosed hquote hclose hstack ho)

theorem Stands.lined (h : Stands options text st rest) : st.Lined text :=
  invariant (P := fun st _ => st.Lined text) ⟨nofun, nofun⟩ (fun _ _ _ _ h => ⟨h.pending, h.found⟩)
    (fun _ _ _ _ hpass hresume hvisit h => h.visited hpass hresume hvisit) h

end Scan

/-- No string of a statement that is found goes on to the next line, unless a backslash stands at
the end of the line. -/
theorem linesEscaped_of_mem {s : Statement} (hs : s ∈ (ofChars options text).statements) :
    ∃ k : Closed, k.StandsIn text ∧ LinesEscaped k.args ∧ k.statement = s := by
  have hlined := (stands_final options text).lined
  have hfound : Scan.FoundLined text (atEnd options text) :=
    Scan.FoundLined.add hlined.found fun k hk => hlined.pending k (List.mem_reverse.1 hk)
  exact hfound s (mem_statements_ofChars.1 hs)

/-- **A string that is not closed costs its own line at most.** What is found in a text that ends
within a string, then a line end and a second text, are the statements of the first text and those
of the second one, read as a whole. And no string of a statement goes on to the next line, unless a
backslash takes the line end along. -/
theorem lost_line (options : Options) :
    (∀ l r : String, Whole options l.toList → Whole options (l ++ "\n" ++ r).toList →
      EndsInString options l.toList →
      (ofText options (l ++ "\n" ++ r)).statements = (ofText options l).statements ++
        ((ofWhole options r.toList).shift (Text.byteLength l.toList + 1)).statements ∧
      (Whole options r.toList → ofWhole options r.toList = ofText options r)) ∧
    ∀ (text : String), ∀ s ∈ (ofText options text).statements,
      ∃ k : Closed, k.StandsIn text.toList ∧ LinesEscaped k.args ∧ k.statement = s := by
  refine ⟨fun l r hwhole hwhole' hend => ⟨?_, ofWhole_eq⟩, fun text s hs => linesEscaped_of_mem hs⟩
  have htext : (l ++ "\n" ++ r).toList = l.toList ++ '\n' :: r.toList := by
    simp [String.toList_append]
  rw [htext] at hwhole'
  rw [ofText, htext]
  exact ofChars_line hwhole hwhole' hend

theorem lost_line_set :
    (ofText {} ("_.set('a, 1);" ++ "\n" ++ "_.add('b', 2);")).statements =
      (ofText {} "_.set('a, 1);").statements ++
        ((ofWhole {} "_.add('b', 2);".toList).shift 14).statements ∧
    (ofText {} "_.add('b', 2);").statements = (ofWhole {} "_.add('b', 2);".toList).statements := by
  have hend : EndsInString {} "_.set('a, 1);".toList := ⟨nofun, nofun, by decide⟩
  have hlost := (lost_line {}).1 "_.set('a, 1);" "_.add('b', 2);" rfl rfl hend
  exact ⟨hlost.1, congrArg Extraction.statements (hlost.2 rfl).symm⟩

/-- A backslash takes the line end along, and the string goes on. -/
example : ofText {} "_.set('a\\\nb', 1);" =
    ⟨[⟨"set", ["'a\\\nb'", "1"], none, ⟨0, 17⟩⟩], []⟩ := by
  cbv

end Extraction

end StatVars
