import StatVars.Proofs.Seam
import StatVars.Proofs.Succession

/-!
# Texts one after the other

Where no statement is open, a pass over a text stands as it does at the start, if nothing is left
out of the text: `Scan.Calm`. So what is found in two texts, one after the other, is what is found
in each of them, if the first one ends with a line. Main statement: `Extraction.ofText_append`.
-/

namespace StatVars

/-! ## Sorting in two parts -/

section

variable {α : Type} {le : α → α → Bool} {l r l' r' : List α}

theorem append_inj_of_split (p : α → Bool) (h : l ++ r = l' ++ r') (hl : ∀ a ∈ l, p a)
    (hr : ∀ a ∈ r, ¬ p a) (hl' : ∀ a ∈ l', p a) (hr' : ∀ a ∈ r', ¬ p a) : l = l' ∧ r = r' := by
  have hfront : l = l' := by
    have hfilter := congrArg (List.filter p) h
    rwa [List.filter_append, List.filter_append, List.filter_eq_self.2 hl,
      List.filter_eq_self.2 hl', List.filter_eq_nil_iff.2 hr, List.filter_eq_nil_iff.2 hr',
      List.append_nil, List.append_nil] at hfilter
  subst hfront
  exact ⟨rfl, List.append_cancel_left h⟩

/-- What comes before can be sorted on its own. -/
theorem mergeSort_append (htrans : ∀ a b c, le a b → le b c → le a c)
    (htotal : ∀ a b, le a b || le b a) (h : ∀ a ∈ l, ∀ b ∈ r, le a b) :
    (l ++ r).mergeSort le = l.mergeSort le ++ r.mergeSort le := by
  induction l with
  | nil => simp
  | cons a l ih =>
    obtain ⟨ha, hl⟩ := List.forall_mem_cons.1 h
    obtain ⟨m₁, m₂, hwhole, hrest, hbefore⟩ := List.mergeSort_cons htrans htotal a (l ++ r)
    obtain ⟨n₁, n₂, hfirst, hrest', hbefore'⟩ := List.mergeSort_cons htrans htotal a l
    have hbehind : ∀ b ∈ m₂, le a b := by
      have hsorted := List.pairwise_mergeSort htrans htotal (a :: (l ++ r))
      rw [hwhole, List.pairwise_append, List.pairwise_cons] at hsorted
      exact hsorted.2.1.1
    have hbehind' : ∀ b ∈ n₂, le a b := by
      have hsorted := List.pairwise_mergeSort htrans htotal (a :: l)
      rw [hfirst, List.pairwise_append, List.pairwise_cons] at hsorted
      exact hsorted.2.1.1
    have hsplit : m₁ ++ m₂ = n₁ ++ (n₂ ++ r.mergeSort le) := by
      rw [← hrest, ih hl, hrest', List.append_assoc]
    obtain ⟨rfl, rfl⟩ := append_inj_of_split (fun b => !le a b) hsplit hbefore
      (fun b hb => by simp [hbehind b hb]) hbefore' fun b hb => by
        obtain hb | hb := List.mem_append.1 hb
        · simp [hbehind' b hb]
        · simp [ha b (List.mem_mergeSort.1 hb)]
    rw [List.cons_append, hwhole, hfirst, List.append_assoc, List.cons_append]

/-! Sorting by a place. -/

variable {n : Nat} (place : α → Nat)

theorem le_place_trans (a b c : α) (hab : decide (place a ≤ place b))
    (hbc : decide (place b ≤ place c)) : decide (place a ≤ place c) :=
  decide_eq_true ((of_decide_eq_true hab).trans (of_decide_eq_true hbc))

theorem le_place_total (a b : α) : decide (place a ≤ place b) || decide (place b ≤ place a) := by
  simpa using Nat.le_total (place a) (place b)

theorem pairwise_mergeSort_place (l : List α) :
    (l.mergeSort fun a b => decide (place a ≤ place b)).Pairwise fun a b => place a ≤ place b :=
  (List.pairwise_mergeSort (le_place_trans place) (le_place_total place) l).imp of_decide_eq_true

theorem mergeSort_place_append (move : α → α) (r : List α)
    (hmove : ∀ a, place (move a) = place a + n) (hl : ∀ a ∈ l, place a < n) :
    (l ++ r.map move).mergeSort (fun a b => place a ≤ place b) =
      l.mergeSort (fun a b => place a ≤ place b) ++
        (r.mergeSort fun a b => place a ≤ place b).map move := by
  have hmoved : (r.mergeSort fun a b => decide (place a ≤ place b)).map move =
      (r.map move).mergeSort fun a b => decide (place a ≤ place b) := by
    refine List.map_mergeSort fun a _ b _ => ?_
    rw [hmove, hmove]
    exact decide_eq_decide.2 Nat.add_le_add_iff_right.symm
  rw [hmoved, mergeSort_append (le_place_trans place) (le_place_total place)]
  intro a ha b hb
  obtain ⟨b, -, rfl⟩ := List.mem_map.1 hb
  rw [hmove]
  exact decide_eq_true ((hl a ha).le.trans (Nat.le_add_left ..))

end

namespace Extraction

variable {options : Options} {text rest : List Char} {c : Char} {n : Nat} {e e' : Extraction}

/-- All that has been found starts before the place. -/
structure StartsBefore (e : Extraction) (place : Nat) : Prop where
  statements : ∀ s ∈ e.statements, s.span.start < place
  diagnostics : ∀ d ∈ e.diagnostics, d.span.start < place

theorem StartsBefore.mono {place place' : Nat} (h : e.StartsBefore place) (hle : place ≤ place') :
    e.StartsBefore place' where
  statements := fun s hs => (h.statements s hs).trans_le hle
  diagnostics := fun d hd => (h.diagnostics d hd).trans_le hle

/-- What has been found is in the order of its places. -/
structure InOrder (e : Extraction) : Prop where
  statements : e.statements.Pairwise fun s t => s.span.start ≤ t.span.start
  diagnostics : e.diagnostics.Pairwise fun d d' => d.span.start ≤ d'.span.start

theorem inOrder_sorted (e : Extraction) : e.sorted.InOrder where
  statements := pairwise_mergeSort_place (fun s : Statement => s.span.start) e.statements
  diagnostics := pairwise_mergeSort_place (fun d : Diagnostic => d.span.start) e.diagnostics

theorem shift_zero (e : Extraction) : e.shift 0 = e := by
  simp [shift, Statement.shift, Diagnostic.shift, Span.shift]

theorem empty_append (e : Extraction) : {} ++ e = e := rfl

theorem sorted_append (h : e.StartsBefore n) :
    (e ++ e'.shift n).sorted = e.sorted ++ e'.sorted.shift n := by
  have hstatements := mergeSort_place_append (fun s : Statement => s.span.start) (·.shift n)
    e'.statements (fun _ => rfl) h.statements
  have hdiagnostics := mergeSort_place_append (fun d : Diagnostic => d.span.start) (·.shift n)
    e'.diagnostics (fun _ => rfl) h.diagnostics
  simp only [append_def, sorted, shift, hstatements, hdiagnostics]

namespace Scan

variable {st st' : Scan} {k : Closed}

/-! ## What has been found lies behind -/

/-- What is found is one of the statements that were open or that waited. -/
theorem Changed.startsBefore (h : Changed options st rest st') (hordered : st.Ordered)
    (hfound : st.found.StartsBefore st.position) : st'.found.StartsBefore st.position := by
  have hopened (os : List Opened) (hos : ∀ o ∈ os, o ∈ st.stack) (stop : Nat) (flaw : Flaw) :
      (st.found.passOver os stop flaw).StartsBefore st.position := by
    refine ⟨hfound.statements, fun d hd => ?_⟩
    obtain hd | ⟨o, ho, rfl⟩ := mem_diagnostics_passOver.1 hd
    · exact hfound.diagnostics d hd
    · exact hordered.opened o (hos o ho)
  have hclosed {e : Extraction} (he : e.StartsBefore st.position) (ks : List Closed)
      (hks : ∀ k ∈ ks, k.start < st.position) :
      (e.add options ks).StartsBefore st.position := by
    constructor
    · intro s hs
      obtain hs | ⟨k, hk, -, rfl⟩ := mem_statements_add.1 hs
      · exact he.statements s hs
      · exact hks k hk
    · intro d hd
      obtain hd | ⟨k, hk, -, rfl⟩ := mem_diagnostics_add.1 hd
      · exact he.diagnostics d hd
      · exact hks k hk
  cases h with
  | same _ _ hfound' | opened _ _ _ _ hfound' => rwa [hfound']
  | dropped inner hstack _ _ hfound' =>
    rw [hfound']
    exact hopened inner (fun o ho => hstack ▸ List.mem_append_left _ ho) _ _
  | closed inner o hstack _ _ hfound' =>
    rw [hfound']
    exact hopened inner (fun o ho => hstack ▸ List.mem_append_left _ ho) _ _
  | completed inner o hstack _ _ hfound' =>
    rw [hfound']
    refine hclosed (hopened inner (fun o ho => hstack ▸ List.mem_append_left _ ho) _ _) _ ?_
    exact List.forall_mem_singleton.2 (hordered.opened o (by simp [hstack]))
  | abandoned os stop flaw hos _ _ _ _ hfound' =>
    rw [hfound']
    refine hclosed (hopened os (fun o ho => (hos o).1 ho) _ _) _ fun k hk => ?_
    exact (hordered.pending k (List.mem_reverse.1 hk)).1

theorem Stands.startsBefore (h : Stands options text st rest) :
    st.found.StartsBefore st.position := by
  refine invariant (P := fun st _ => st.found.StartsBefore st.position) ⟨nofun, nofun⟩ ?_ ?_ h
  · intro st c rest _ h
    exact h.mono (Nat.le_add_right ..)
  · intro st c rest st' hpass _ hvisit h
    have hnext := (hvisit.changed hpass.ordered).startsBefore hpass.ordered h
    exact hnext.mono (Nat.le_add_right ..)

/-! ## Where no statement is open -/

theorem takeReason_le (s : List Char) : (takeReason s).2 ≤ Text.byteLength s := by
  unfold takeReason
  split
  · next line hdrop =>
    have hlength (u : List Char) : u.length ≤ Text.byteLength u := by
      induction u with
      | nil => exact Nat.le_refl _
      | cons c u ih =>
        have hpos := c.utf8Size_pos
        rw [List.length_cons, Text.byteLength_cons]
        omega
    have hmark : ('/' : Char).utf8Size = 1 := rfl
    have hs := congrArg Text.byteLength (List.takeWhile_append_dropWhile (p := isGap) (l := s))
    have hline := congrArg Text.byteLength
      (List.takeWhile_append_dropWhile (p := (· != '\n')) (l := line))
    have hgap := hlength (s.takeWhile isGap)
    rw [hdrop] at hs
    simp only [Text.byteLength_append, Text.byteLength_cons, hmark] at hs hline
    dsimp only
    omega
  · exact Nat.zero_le _

/-- A statement reaches to the end of the text at most. -/
theorem stop_le (k : Closed) : k.stop options ≤ k.close + 1 + Text.byteLength k.rest := by
  unfold Closed.stop
  split
  · have hreason := takeReason_le k.behind.2
    have hbehind : k.behind.1 + Text.byteLength k.behind.2 =
        k.close + 1 + Text.byteLength k.rest := by
      unfold Closed.behind
      split
      · next hrest =>
        obtain ⟨rest, hrest⟩ := List.head?_eq_some_iff.1 hrest
        have hmark : (';' : Char).utf8Size = 1 := rfl
        simp only [hrest, List.tail_cons, Text.byteLength_cons, hmark]
        omega
      · rfl
    change k.behind.1 + (takeReason k.behind.2).2 ≤ _
    omega
  · exact Nat.le_add_right ..

/-- A pass that leaves nothing out: outside of strings it does not look beyond the end of the text,
and where no statement is open it stands as at the start. -/
structure Calm (st : Scan) (rest : List Char) : Prop where
  skips : st.skips = []
  resume : st.quote = none → st.resume ≤ st.position + Text.byteLength rest
  idle : st.stack = [] → st.quote = none ∧ st.depth = {}

namespace Calm

theorem skip (h : st.Calm (c :: rest)) : (st.advance st.position c).Calm rest := by
  refine ⟨h.skips, fun hquote => (h.resume hquote).trans (Nat.le_of_eq ?_), h.idle⟩
  exact (Nat.add_assoc ..).symm

/-- A step that lets the search go on with the next character. -/
theorem of_le (hskips : st'.skips = []) (hresume : st'.resume ≤ st.position)
    (hidle : st'.stack = [] → st'.quote = none ∧ st'.depth = {}) :
    (st'.advance st.position c).Calm rest := by
  refine ⟨hskips, fun _ => ?_, hidle⟩
  exact (hresume.trans (Nat.le_add_right ..)).trans (Nat.le_add_right ..)

theorem visited (h : st.Calm (c :: rest)) (hresume : st.resume ≤ st.position)
    (hvisit : Visited options st c rest st') : (st'.advance st.position c).Calm rest := by
  have hopen {q : Char} (hquote : st.quote = some q) : st.stack ≠ [] := by
    intro hstack
    rw [(h.idle hstack).1] at hquote
    cases hquote
  cases hvisit with
  | escape hquote =>
    refine ⟨h.skips, fun hnone => ?_, fun hnil => absurd hnil (hopen hquote)⟩
    exact absurd (hquote.symm.trans hnone) (Option.some_ne_none _)
  | line hquote =>
    rw [abandon_eq]
    exact .of_le h.skips hresume fun _ => ⟨rfl, rfl⟩
  | quoted hquote => exact .of_le h.skips hresume fun hstack => absurd hstack (hopen hquote)
  | leap _ _ hskips =>
    rw [skipsAhead_of_nil h.skips] at hskips
    cases hskips
  | prose => exact .of_le (skipsAhead_of_nil h.skips) hresume h.idle
  | @enter skips verb args hquote hc hopen hskips =>
    have hnone : skips = [] := by
      obtain ⟨-, rfl⟩ | ⟨-, rfl, -⟩ := hskips
      · exact h.skips
      · exact skipsAhead_of_nil h.skips
    refine ⟨hnone, fun _ => ?_, fun hnil => absurd hnil (List.cons_ne_nil _ _)⟩
    have hmark : ('_' : Char).utf8Size = 1 := rfl
    have hlength := byteLength_opening hopen
    simp only [advance, Scan.enter, hc, hmark]
    omega
  | quote _ hstack | plain _ hstack => exact .of_le h.skips hresume fun hnil => absurd hnil hstack
  | pass => exact .of_le h.skips hresume fun hnil => absurd hnil (List.cons_ne_nil _ _)
  | wait _ _ _ houter => exact .of_le h.skips hresume fun hnil => absurd hnil houter
  | passAll hquote => exact .of_le h.skips hresume fun _ => ⟨hquote, rfl⟩
  | complete hquote hclose =>
    refine ⟨h.skips, fun _ => (stop_le _).trans (Nat.le_of_eq ?_), fun _ => ⟨hquote, rfl⟩⟩
    simp only [advance, Opened.closedAt, utf8Size_of_isClosing hclose]

end Calm

theorem Stands.calm (hblocks : Tag.nestedBlocks options.wrapperTag.toList
    options.analysisTag.toList text = []) (h : Stands options text st rest) : st.Calm rest :=
  invariant (P := fun st rest => st.Calm rest)
    ⟨hblocks, fun _ => Nat.zero_le _, fun _ => ⟨rfl, rfl⟩⟩ (fun _ _ _ _ h => h.skip)
    (fun _ _ _ _ _ hresume hvisit h => h.visited hresume hvisit) h

/-- No statement is open, and the search goes on as at the start of a text. -/
structure Idle (st : Scan) : Prop where
  skips : st.skips = []
  stack : st.stack = []
  pending : st.pending = []
  quote : st.quote = none
  depth : st.depth = {}
  resume : st.resume ≤ st.position
  before : st.before.any inVerb = false

theorem before_step (st : Scan) : (step options st c rest).before = some c := rfl

theorem before_run (s : List Char) (st : Scan) :
    (run options s st).before = s.getLast?.or st.before := by
  induction s generalizing st with
  | nil => rfl
  | cons c s ih =>
    rw [run_cons, ih, before_step, List.getLast?_cons]
    cases s.getLast? <;> rfl

theorem InStep.idle {t : List Char} {earlier : Extraction} (h : InStep n t earlier st [] st')
    (hidle : st.Idle) : st'.Idle := by
  have hresume := h.resume
  have hbefore := h.before
  have hmoved := h.moved
  generalize st'.resume = resume, st'.before = before at hmoved hresume hbefore
  subst hmoved
  refine ⟨hidle.skips, ?_, ?_, hidle.quote, hidle.depth, ?_, hbefore.trans hidle.before⟩
  · simp [Scan.moved, hidle.stack]
  · simp [Scan.moved, hidle.pending]
  · rw [Nat.sub_eq_zero_of_le hidle.resume] at hresume
    exact Nat.le_of_sub_eq_zero hresume

theorem InStep.found_abandon {t : List Char} {earlier : Extraction}
    (h : InStep n t earlier st rest st') (options : Options) (stop : Nat) (flaw : Flaw) :
    (abandon options st' (stop + n) flaw).found =
      earlier ++ (abandon options st stop flaw).found.shift n := by
  rw [h.moved, abandon_moved _ h.waiting]
  rfl

theorem Idle.moved (h : st.Idle) : st =
    ({ skips := [] } : Scan).moved st.position [] st.found st.resume st.before := by
  obtain ⟨hskips, hstack, hpending, hquote, hdepth, -, -⟩ := h
  obtain ⟨position, resume, before, quote, skips, stack, pending, depth, found⟩ := st
  dsimp only at hskips hstack hpending hquote hdepth
  subst hskips hstack hpending hquote hdepth
  simp [Scan.moved]

/-- Where the search goes on as at the start, it finds what it finds at the start. -/
theorem Idle.found_eq (h : st.Idle) (options : Options) (text : List Char) :
    (abandon options (run options text st) (Text.byteLength text + st.position) .unclosed).found =
      st.found ++ (abandon options (run options text { skips := [] }) (Text.byteLength text)
        .unclosed).found.shift st.position := by
  have hstep : InStep st.position [] st.found { skips := [] } text st :=
    ⟨h.moved, Nat.sub_eq_zero_of_le h.resume, h.before, rfl, nofun, nofun⟩
  obtain ⟨st', hrun, hend⟩ := hstep.run fun _ _ => .inr nofun
  rw [List.append_nil] at hrun
  rw [hrun, run, hend.found_abandon]

end Scan

/-! ## Two texts -/

/-- What is found in a text of which nothing is left out. -/
def ofWhole (options : Options) (text : List Char) : Extraction :=
  (Scan.abandon options (Scan.run options text { skips := [] }) (Text.byteLength text)
    .unclosed).found.sorted

/-- Nothing is left out of the text. -/
def Whole (options : Options) (text : List Char) : Prop :=
  Tag.nestedBlocks options.wrapperTag.toList options.analysisTag.toList text = []

theorem Whole.start_eq (h : Whole options text) : Scan.start options text = { skips := [] } := by
  rw [Scan.start, h]

theorem ofWhole_eq (h : Whole options text) : ofWhole options text = ofChars options text := by
  rw [ofWhole, ← h.start_eq]
  rfl

theorem position_final (options : Options) (text : List Char) :
    (final options text).position = Text.byteLength text := by
  obtain ⟨passed, htext, hposition⟩ := (stands_final options text).exists_passed
  rw [List.append_nil] at htext
  rw [htext, hposition, ← htext]

/-- All that is found starts within the text. -/
theorem startsBefore_atEnd (options : Options) (text : List Char) :
    (atEnd options text).StartsBefore (Text.byteLength text) := by
  have hpass := stands_final options text
  rw [← position_final options text]
  exact (changed_atEnd options text).startsBefore hpass.ordered hpass.startsBefore

/-- What is found by a pass that goes on as at the start of `text`. -/
theorem Scan.Idle.sorted_eq {st : Scan} (h : st.Idle) (hfound : st.found.StartsBefore st.position)
    (options : Options) (text : List Char) : (Scan.abandon options (Scan.run options text st)
      (Text.byteLength text + st.position) .unclosed).found.sorted =
      st.found.sorted ++ (ofWhole options text).shift st.position := by
  rw [h.found_eq options text, sorted_append hfound]
  rfl

section

variable {a b : List Char}

/-- The pass over the first of two texts, if a line ends between them. -/
theorem final_append (hwhole : Whole options a) (hwhole' : Whole options (a ++ b))
    (hline : a.getLast? = some '\n' ∨ b.head? = some '\n') :
    ∃ st, final options (a ++ b) = Scan.run options b st ∧
      Scan.InStep 0 b {} (final options a) [] st := by
  have hstart : Scan.InStep 0 b {} (Scan.start options a) a (Scan.start options (a ++ b)) := by
    rw [hwhole.start_eq, hwhole'.start_eq]
    exact ⟨rfl, rfl, rfl, rfl, nofun, nofun⟩
  refine hstart.run fun x hx => ?_
  obtain hline | hline := hline
  · exact .inl (Option.some.inj (hx.symm.trans hline))
  · exact .inr fun y hy => Option.some.inj (hy.symm.trans hline)

/-- The pass over a text that ends with a line and leaves no statement open. -/
theorem idle_final (hwhole : Whole options a) (hline : a.getLast? = some '\n')
    (hclosed : (final options a).stack = []) : (final options a).Idle := by
  have hpass := stands_final options a
  have hcalm := hpass.calm hwhole
  obtain ⟨hquote, hdepth⟩ := hcalm.idle hclosed
  refine ⟨hcalm.skips, hclosed, ?_, hquote, hdepth, hcalm.resume hquote, ?_⟩
  · refine List.eq_nil_iff_forall_not_mem.2 fun k hk => ?_
    obtain ⟨-, o, ho, -⟩ := hpass.ordered.pending k hk
    rw [hclosed] at ho
    cases ho
  · rw [final, Scan.before_run, hline]
    rfl

theorem atEnd_of_idle (h : (final options a).Idle) :
    atEnd options a = (final options a).found := by
  rw [atEnd, h.stack, h.pending]
  simp [passOver, add_nil]

theorem ofChars_append (hwhole : Whole options a) (hwhole' : Whole options b)
    (hwhole'' : Whole options (a ++ b)) (hline : a.getLast? = some '\n')
    (hclosed : (final options a).stack = []) : ofChars options (a ++ b) =
      ofChars options a ++ (ofChars options b).shift (Text.byteLength a) := by
  have hidle := idle_final hwhole hline hclosed
  obtain ⟨st, hrun, hst⟩ := final_append hwhole hwhole'' (.inl hline)
  have hposition : st.position = Text.byteLength a := by
    rw [hst.position_eq, position_final, Nat.add_zero]
  have hfound : st.found = atEnd options a := by
    rw [hst.moved, atEnd_of_idle hidle]
    exact (empty_append _).trans (shift_zero _)
  have hbefore : st.found.StartsBefore st.position := by
    rw [hfound, hposition]
    exact startsBefore_atEnd options a
  have hwhole := (hst.idle hidle).sorted_eq hbefore options b
  rw [← hrun, hfound, hposition, Nat.add_comm, ← Text.byteLength_append, ofWhole_eq hwhole',
    ← ofChars_eq] at hwhole
  exact hwhole

end

/-- **What is found in two texts, one after the other, is what is found in each of them**, if the
first one ends with a line and leaves no statement open. -/
theorem ofText_append (options : Options) (a b : String) (hwhole : Whole options a.toList)
    (hwhole' : Whole options b.toList) (hwhole'' : Whole options (a ++ b).toList)
    (hline : a.toList.getLast? = some '\n') (hclosed : (final options a.toList).stack = []) :
    ofText options (a ++ b) =
      ofText options a ++ (ofText options b).shift (Text.byteLength a.toList) ∧
      (ofText options (a ++ b)).InOrder := by
  constructor
  · rw [String.toList_append] at hwhole''
    rw [ofText, String.toList_append]
    exact ofChars_append hwhole hwhole' hwhole'' hline hclosed
  · rw [ofText, ofChars_eq]
    exact inOrder_sorted _

theorem ofText_append_lines :
    ofText {} ("_.set('a', 1); // why\n" ++ "_.add('b', 2);") =
      ofText {} "_.set('a', 1); // why\n" ++ (ofText {} "_.add('b', 2);").shift 22 ∧
      (ofText {} ("_.set('a', 1); // why\n" ++ "_.add('b', 2);")).InOrder :=
  ofText_append {} "_.set('a', 1); // why\n" "_.add('b', 2);" rfl rfl rfl rfl rfl

end Extraction

end StatVars
