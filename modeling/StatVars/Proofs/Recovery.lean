import StatVars.Proofs.Pass

/-!
# Statements within flawed statements

A statement that closes within the arguments of others waits for what becomes of them. It is found
in its own right once all of them have been given up, and it is gone once one of them is finished,
even if that one is not found because its semicolon is missing: `Extraction.Scan.Fate`. Main
statement: `Extraction.found_iff_of_closes`.
-/

namespace StatVars

namespace Extraction

variable {options : Options} {text rest : List Char} {c : Char}

namespace Scan

variable {st st' : Scan} {k : Closed} {n : Opened} {outer : List Opened} {start : Nat}

/-! ## Closing within others -/

/-- The next character closes the opened statement `n` within the arguments of those in `outer`. -/
structure Closes (st : Scan) (c : Char) (n : Opened) (outer : List Opened) : Prop where
  looked : st.resume ≤ st.position
  unquoted : st.quote = none
  closing : Depth.isClosing c
  stack : ∃ inner, st.stack = inner ++ n :: outer ∧ ∀ p ∈ inner, (st.depth.past c).isBelow p.base
  depth : st.depth.past c = n.base

theorem visit_closing (hquote : st.quote = none) (hstack : st.stack ≠ [])
    (hclose : Depth.isClosing c) : visit options st c rest =
      settle options rest st.stack { st with depth := st.depth.past c } := by
  simp only [Depth.isClosing, Bool.or_eq_true, beq_iff_eq] at hclose
  obtain (rfl | rfl) | rfl := hclose
  all_goals simp [visit, hquote, visitPlain, visitArgument, hstack, Text.isQuote]

/-! ## What becomes of a closed statement -/

theorem finished_unbalanced {found : Extraction} {os : List Opened} {stop : Nat} :
    (found.passOver os stop .unbalanced).Finished start ↔ found.Finished start :=
  finished_passOver nofun

/-- No statement that starts at `start` is open, waits or is finished. -/
structure Free (start : Nat) (st : Scan) : Prop where
  unfinished : ¬ st.found.Finished start
  pending : ∀ k ∈ st.pending, k.start ≠ start
  stack : ∀ o ∈ st.stack, o.start ≠ start

/-- What has become of the statement `k`, that was closed within those in `outer`. -/
inductive Fate (k : Closed) (outer : List Opened) (st : Scan) : Prop
  | waits (hk : k ∈ st.pending) (hfound : ¬ st.found.Finished k.start)
      (houter : ∀ o ∈ outer, ¬ st.found.Finished o.start ∧ ∀ l ∈ st.pending, l.start ≠ o.start)
      (hstack : ∀ p ∈ st.stack, p.start < k.start → p ∈ outer)
  | covered (hfree : st.Free k.start) {l : Closed} (hl : l ∈ st.pending)
      (hlouter : ∃ o ∈ outer, l.start = o.start)
      (hstack : ∀ p ∈ st.stack, p.start < l.start → p ∈ outer)
  | gone (hfree : st.Free k.start) (hfinished : ∃ o ∈ outer, st.found.Finished o.start)
  | kept (hk : k.statement ∈ st.found.statements) (houter : ∀ o ∈ outer, st.Free o.start)

/-- What has been found stays. -/
theorem Changed.statements (h : Changed options st rest st') :
    st.found.statements ⊆ st'.found.statements := by
  intro s hs
  cases h with
  | same _ _ hfound | opened _ _ _ _ hfound | dropped _ _ _ _ hfound
  | closed _ _ _ _ _ hfound => rwa [hfound]
  | completed _ _ _ _ _ hfound | abandoned _ _ _ _ _ _ _ _ hfound =>
    rw [hfound, mem_statements_add]
    exact .inl hs

theorem Changed.finished (h : Changed options st rest st') (hstart : st.found.Finished start) :
    st'.found.Finished start := by
  cases h with
  | same _ _ hfound | opened _ _ _ _ hfound => rwa [hfound]
  | dropped _ _ _ _ hfound | closed _ _ _ _ _ hfound => rwa [hfound, finished_unbalanced]
  | completed _ _ _ _ _ hfound =>
    rw [hfound, finished_add, finished_unbalanced]
    exact .inl hstart
  | abandoned _ _ _ _ _ hflaw _ _ hfound =>
    rw [hfound, finished_add, finished_passOver hflaw]
    exact .inl hstart

theorem Free.changed (h : st.Free start) (hstart : start < st.position)
    (hchanged : Changed options st rest st') : st'.Free start := by
  obtain ⟨hunfinished, hpending, hstack⟩ := h
  cases hchanged with
  | same hstack' hpending' hfound' =>
    refine ⟨?_, ?_, ?_⟩
    · rwa [hfound']
    · rwa [hpending']
    · rwa [hstack']
  | opened o ho hstack' hpending' hfound' =>
    refine ⟨?_, ?_, ?_⟩
    · rwa [hfound']
    · rwa [hpending']
    · rw [hstack']
      exact List.forall_mem_cons.2 ⟨by omega, hstack⟩
  | dropped inner hstack' hne hpending' hfound' =>
    refine ⟨?_, ?_, ?_⟩
    · rwa [hfound', finished_unbalanced]
    · rwa [hpending']
    · rw [hstack'] at hstack
      exact fun o ho => hstack o (List.mem_append_right _ ho)
  | closed inner o hstack' hne hpending' hfound' =>
    rw [hstack', List.forall_mem_append, List.forall_mem_cons] at hstack
    refine ⟨?_, ?_, ?_⟩
    · rwa [hfound', finished_unbalanced]
    · rw [hpending']
      exact List.forall_mem_cons.2 ⟨hstack.2.1, fun k hk => hpending k (outside_subset o hk)⟩
    · exact hstack.2.2
  | completed inner o hstack' hnone hpending' hfound' =>
    rw [hstack', List.forall_mem_append, List.forall_mem_singleton] at hstack
    refine ⟨?_, by simp [hpending'], by simp [hnone]⟩
    rw [hfound', finished_add, finished_unbalanced]
    rintro (h | ⟨k, hk, hkstart⟩)
    · exact hunfinished h
    · cases List.mem_singleton.1 hk
      exact hstack.2 hkstart
  | abandoned os stop flaw hos hstop hflaw hnone hpending' hfound' =>
    refine ⟨?_, by simp [hpending'], by simp [hnone]⟩
    rw [hfound', finished_add, finished_passOver hflaw]
    rintro (h | ⟨k, hk, hkstart⟩)
    · exact hunfinished h
    · exact hpending k (List.mem_reverse.1 hk) hkstart

section

variable (hk : k.start < st.position) (hordered : st.Ordered)

include hk hordered

theorem changed_of_covered (hfree : st.Free k.start) {l : Closed} (hl : l ∈ st.pending)
    (hlouter : ∃ o ∈ outer, l.start = o.start)
    (hopen : ∀ p ∈ st.stack, p.start < l.start → p ∈ outer)
    (hchanged : Changed options st rest st') : Fate k outer st' := by
  have hfree' := hfree.changed hk hchanged
  have hlt := (hordered.pending l hl).1
  cases hchanged with
  | same hstack hpending hfound =>
    refine .covered hfree' (l := l) ?_ hlouter ?_
    · rwa [hpending]
    · rwa [hstack]
  | opened o ho hstack hpending hfound =>
    refine .covered hfree' (l := l) ?_ hlouter ?_
    · rwa [hpending]
    · rw [hstack]
      exact List.forall_mem_cons.2 ⟨fun hol => by omega, hopen⟩
  | dropped inner hstack hne hpending hfound =>
    rw [hstack, List.forall_mem_append] at hopen
    refine .covered hfree' (l := l) ?_ hlouter hopen.2
    rwa [hpending]
  | closed inner o hstack hne hpending hfound =>
    have hstarts := hordered.stack
    rw [hstack, List.pairwise_append, List.pairwise_cons] at hstarts
    rw [hstack, List.forall_mem_append, List.forall_mem_cons] at hopen
    by_cases hol : o.start < l.start
    · refine .covered hfree' (l := Opened.closedAt o st.position rest) ?_ ⟨o, hopen.2.1 hol, rfl⟩
        fun p hp hpo => hopen.2.2 p hp (hpo.trans hol)
      rw [hpending]
      exact List.mem_cons_self
    · refine .covered hfree' (l := l) ?_ hlouter hopen.2.2
      rw [hpending]
      exact List.mem_cons_of_mem _ (mem_outside hl (Nat.le_of_not_lt hol))
  | completed inner o hstack hnone hpending hfound =>
    obtain ⟨-, p, hp, hol⟩ := hordered.pending l hl
    rw [hstack, List.getLast?_concat] at hp
    cases hp
    refine .gone hfree' ⟨o, hopen o (by simp [hstack]) hol, ?_⟩
    rw [hfound, finished_add_singleton]
    exact .inr rfl
  | abandoned os stop flaw hos hstop hflaw hnone hpending hfound =>
    obtain ⟨o, ho, hstart⟩ := hlouter
    refine .gone hfree' ⟨o, ho, ?_⟩
    rw [hfound, finished_add]
    exact .inr ⟨l, List.mem_reverse.2 hl, hstart⟩

variable (houter : ∀ o ∈ outer, o.start < k.start)

include houter

theorem changed_of_waits (hcomplete : k.isComplete options) (hwaits : k ∈ st.pending)
    (hfound : ¬ st.found.Finished k.start)
    (hfree : ∀ o ∈ outer, ¬ st.found.Finished o.start ∧ ∀ l ∈ st.pending, l.start ≠ o.start)
    (hopen : ∀ p ∈ st.stack, p.start < k.start → p ∈ outer)
    (hchanged : Changed options st rest st') : Fate k outer st' := by
  cases hchanged with
  | same hstack hpending hfound' =>
    refine .waits ?_ ?_ ?_ ?_
    · rwa [hpending]
    · rwa [hfound']
    · rwa [hfound', hpending]
    · rwa [hstack]
  | opened o ho hstack hpending hfound' =>
    refine .waits ?_ ?_ ?_ ?_
    · rwa [hpending]
    · rwa [hfound']
    · rwa [hfound', hpending]
    · rw [hstack]
      exact List.forall_mem_cons.2 ⟨fun hlt => by omega, hopen⟩
  | dropped inner hstack hne hpending hfound' =>
    rw [hstack, List.forall_mem_append] at hopen
    refine .waits ?_ ?_ ?_ hopen.2
    · rwa [hpending]
    · rwa [hfound', finished_unbalanced]
    · simpa only [hfound', hpending, finished_unbalanced] using hfree
  | closed inner o hstack hne hpending hfound' =>
    have hstarts := hordered.stack
    rw [hstack, List.pairwise_append, List.pairwise_cons] at hstarts
    rw [hstack, List.forall_mem_append, List.forall_mem_cons] at hopen
    by_cases hlt : o.start < k.start
    · -- An enclosing statement waits in the place of the closed one.
      refine .covered ⟨?_, ?_, ?_⟩ (l := Opened.closedAt o st.position rest) ?_
        ⟨o, hopen.2.1 hlt, rfl⟩ fun p hp hpo => hopen.2.2 p hp (hpo.trans hlt)
      · rwa [hfound', finished_unbalanced]
      · rw [hpending]
        refine List.forall_mem_cons.2 ⟨hlt.ne, fun l hl => ?_⟩
        exact (Nat.lt_of_le_of_lt (hordered.start_le_of_outside hl) hlt).ne
      · exact fun p hp => ((hstarts.2.1.1 p hp).trans hlt).ne
      · rw [hpending]
        exact List.mem_cons_self
    · refine .waits ?_ ?_ ?_ hopen.2.2
      · rw [hpending]
        exact List.mem_cons_of_mem _ (mem_outside hwaits (Nat.le_of_not_lt hlt))
      · rwa [hfound', finished_unbalanced]
      · intro p hp
        rw [hfound', finished_unbalanced, hpending]
        refine ⟨(hfree p hp).1, List.forall_mem_cons.2 ⟨?_, fun l hl => ?_⟩⟩
        · exact (Nat.lt_of_lt_of_le (houter p hp) (Nat.le_of_not_lt hlt)).ne'
        · exact (hfree p hp).2 l (outside_subset o hl)
  | completed inner o hstack hnone hpending hfound' =>
    obtain ⟨-, p, hp, hlt⟩ := hordered.pending k hwaits
    rw [hstack, List.getLast?_concat] at hp
    cases hp
    refine .gone ⟨?_, by simp [hpending], by simp [hnone]⟩ ⟨o, ?_, ?_⟩
    · rw [hfound', finished_add_singleton, finished_unbalanced]
      rintro (h | h)
      · exact hfound h
      · exact hlt.ne h
    · exact hopen o (by simp [hstack]) hlt
    · rw [hfound', finished_add_singleton]
      exact .inr rfl
  | abandoned os stop flaw hos hstop hflaw hnone hpending hfound' =>
    refine .kept ?_ fun o ho => ⟨?_, by simp [hpending], by simp [hnone]⟩
    · rw [hfound', mem_statements_add]
      exact .inr ⟨k, List.mem_reverse.2 hwaits, hcomplete, rfl⟩
    · rw [hfound', finished_add, finished_passOver hflaw]
      rintro (h | ⟨l, hl, hstart⟩)
      · exact (hfree o ho).1 h
      · exact (hfree o ho).2 l (List.mem_reverse.1 hl) hstart

theorem Fate.changed (hcomplete : k.isComplete options) (h : Fate k outer st)
    (hchanged : Changed options st rest st') : Fate k outer st' := by
  cases h with
  | waits hwaits hfound hfree hopen =>
    exact changed_of_waits hk hordered houter hcomplete hwaits hfound hfree hopen hchanged
  | covered hfree hl hlouter hopen =>
    exact changed_of_covered hk hordered hfree hl hlouter hopen hchanged
  | gone hfree hfinished =>
    obtain ⟨o, ho, hfinished⟩ := hfinished
    exact .gone (hfree.changed hk hchanged) ⟨o, ho, hchanged.finished hfinished⟩
  | kept hfound hfree =>
    exact .kept (hchanged.statements hfound) fun o ho =>
      (hfree o ho).changed ((houter o ho).trans hk) hchanged

end

/-! ## A statement is in one place -/

/-- No opened statement waits or is finished. -/
structure Fresh (st : Scan) : Prop where
  finished : ∀ start, st.found.Finished start → start < st.position
  unfinished : ∀ o ∈ st.stack, ¬ st.found.Finished o.start
  pending : ∀ o ∈ st.stack, ∀ k ∈ st.pending, k.start ≠ o.start

theorem Fresh.changed (h : st.Fresh) (hordered : st.Ordered)
    (hposition : st.position ≤ st'.position) (hchanged : Changed options st rest st') :
    st'.Fresh := by
  obtain ⟨hfinished, hunfinished, hpending⟩ := h
  have hfinished' (start : Nat) (h : st.found.Finished start) : start < st'.position :=
    Nat.lt_of_lt_of_le (hfinished start h) hposition
  cases hchanged with
  | same hstack hpending' hfound =>
    rw [← hfound] at hfinished' hunfinished
    rw [← hstack] at hunfinished hpending
    rw [← hpending'] at hpending
    exact ⟨hfinished', hunfinished, hpending⟩
  | opened o ho hstack hpending' hfound =>
    refine ⟨by rwa [hfound], ?_, ?_⟩
    · rw [hstack, hfound, List.forall_mem_cons]
      refine ⟨fun h => ?_, hunfinished⟩
      exact (hfinished _ h).ne ho
    · rw [hstack, hpending', List.forall_mem_cons]
      refine ⟨fun k hk => ?_, hpending⟩
      rw [ho]
      exact (hordered.pending k hk).1.ne
  | dropped inner hstack hne hpending' hfound =>
    rw [hstack, List.forall_mem_append] at hunfinished hpending
    refine ⟨?_, ?_, ?_⟩
    · simpa only [hfound, finished_unbalanced] using hfinished'
    · simpa only [hfound, finished_unbalanced] using hunfinished.2
    · simpa only [hpending'] using hpending.2
  | closed inner o hstack hne hpending' hfound =>
    have hstarts := hordered.stack
    rw [hstack, List.pairwise_append, List.pairwise_cons] at hstarts
    rw [hstack, List.forall_mem_append, List.forall_mem_cons] at hunfinished hpending
    refine ⟨?_, ?_, fun p hp => ?_⟩
    · simpa only [hfound, finished_unbalanced] using hfinished'
    · simpa only [hfound, finished_unbalanced] using hunfinished.2.2
    · rw [hpending', List.forall_mem_cons]
      exact ⟨(hstarts.2.1.1 p hp).ne', fun k hk => hpending.2.2 p hp k (outside_subset o hk)⟩
  | completed inner o hstack hnone hpending' hfound =>
    refine ⟨fun start h => ?_, by simp [hnone], by simp [hnone]⟩
    rw [hfound, finished_add_singleton, finished_unbalanced] at h
    obtain h | rfl := h
    · exact hfinished' start h
    · exact Nat.lt_of_lt_of_le (hordered.opened o (by simp [hstack])) hposition
  | abandoned os stop flaw hos hstop hflaw hnone hpending' hfound =>
    refine ⟨fun start h => ?_, by simp [hnone], by simp [hnone]⟩
    rw [hfound, finished_add, finished_passOver hflaw] at h
    obtain h | ⟨k, hk, rfl⟩ := h
    · exact hfinished' start h
    · exact Nat.lt_of_lt_of_le (hordered.pending k (List.mem_reverse.1 hk)).1 hposition

theorem Stands.fresh (h : Stands options text st rest) : st.Fresh := by
  refine invariant (P := fun st _ => st.Fresh) ⟨?_, nofun, nofun⟩ ?_ ?_ h
  · rintro start (⟨s, hs, -⟩ | ⟨d, hd, -⟩)
    · cases hs
    · cases hd
  · intro st c rest _ h
    refine ⟨fun start hstart => ?_, h.unfinished, h.pending⟩
    exact Nat.lt_add_right _ (h.finished start hstart)
  · intro st c rest st' hpass _ hvisit h
    exact h.changed hpass.ordered (Nat.le_add_right ..) (hvisit.changed hpass.ordered)

/-- What becomes of a statement when it is closed. -/
theorem Closes.fate (hcloses : Closes st c n outer) (hordered : st.Ordered) (hfresh : st.Fresh)
    (hcomplete : (Opened.closedAt n st.position rest).isComplete options) :
    Fate (Opened.closedAt n st.position rest) outer (step options st c rest) := by
  obtain ⟨hlooked, hquote, hclose, ⟨inner, hstack, hinner⟩, hdepth⟩ := hcloses
  have hvisit : visit options st c rest =
      settle options rest (inner ++ n :: outer) { st with depth := st.depth.past c } := by
    rw [visit_closing hquote (by simp [hstack]) hclose, hstack]
  rw [step_eq st hlooked, hvisit]
  have hunfinished := hfresh.unfinished
  have hpending := hfresh.pending
  have hstarts := hordered.stack
  rw [hstack, List.forall_mem_append, List.forall_mem_cons] at hunfinished hpending
  rw [hstack, List.pairwise_append, List.pairwise_cons] at hstarts
  cases outer with
  | nil =>
    rw [settle_completes { st with depth := st.depth.past c } hinner hdepth]
    refine .kept ?_ nofun
    exact mem_statements_add.2 (.inr ⟨_, by simp, hcomplete, rfl⟩)
  | cons p outer =>
    rw [settle_waits { st with depth := st.depth.past c } hinner hdepth (by simp)]
    refine .waits List.mem_cons_self ?_ (fun o ho => ⟨?_, ?_⟩) fun o ho _ => ho
    · exact mt finished_unbalanced.1 hunfinished.2.1
    · exact mt finished_unbalanced.1 (hunfinished.2.2 o ho)
    · refine List.forall_mem_cons.2 ⟨(hstarts.2.1.1 o ho).ne', fun k hk => ?_⟩
      exact hpending.2.2 o ho k (outside_subset n hk)

/-- What has become of a closed statement at the end of the text. -/
theorem Stands.fate_atEnd (hpass : Stands options text st rest) (hstart : k.start < st.position)
    (houter : ∀ o ∈ outer, o.start < k.start) (hcomplete : k.isComplete options)
    (h : Fate k outer st) :
    Fate k outer
      { final options text with stack := [], pending := [], found := atEnd options text } := by
  have hend : k.start < (Scan.run options rest st).position ∧
      Fate k outer (Scan.run options rest st) := by
    refine preserved (P := fun st _ => k.start < st.position ∧ Fate k outer st) ?_ ?_ hpass
      ⟨hstart, h⟩
    · rintro st c rest hpass - ⟨hstart, h⟩
      have hchanged : Changed options st rest (st.advance st.position c) := .same rfl rfl rfl
      exact ⟨Nat.lt_add_right _ hstart, h.changed hstart hpass.ordered houter hcomplete hchanged⟩
    · rintro st c rest st' hpass - hvisit ⟨hstart, h⟩
      have hchanged := hvisit.changed hpass.ordered
      exact ⟨Nat.lt_add_right _ hstart, h.changed hstart hpass.ordered houter hcomplete hchanged⟩
  rw [hpass.run_eq] at hend
  exact hend.2.changed hend.1 (stands_final options text).ordered houter hcomplete
    (changed_atEnd options text)

end Scan

/-- **A statement that closes within others is found exactly if none of these is finished.** It is
found after they have been given up for their brackets, for a string or for the end of the text, and
not when one of them is found or only lacks its semicolon. -/
theorem found_iff_of_closes (options : Options) (text : String) {st : Scan} {n : Opened}
    {outer : List Opened} (hpass : Scan.Stands options text.toList st (c :: rest))
    (hcloses : Scan.Closes st c n outer)
    (hsemicolon : options.requireSemicolon → rest.head? = some ';') :
    (Scan.Opened.closedAt n st.position rest).statement ∈ (ofText options text).statements ↔
      ∀ o ∈ outer, ¬ (ofText options text).Finished o.start := by
  have hcomplete : (Scan.Opened.closedAt n st.position rest).isComplete options := by
    cases hoption : options.requireSemicolon with
    | true => simp [Closed.isComplete, Scan.Opened.closedAt, hsemicolon hoption]
    | false => simp [Closed.isComplete, hoption]
  obtain ⟨inner, hstack, -⟩ := hcloses.stack
  have hstarts := hpass.ordered.stack
  rw [hstack, List.pairwise_append, List.pairwise_cons] at hstarts
  have hstart : n.start < (Scan.step options st c rest).position :=
    Nat.lt_add_right _ (hpass.ordered.opened n (by simp [hstack]))
  have hfate := hpass.step.fate_atEnd hstart hstarts.2.1.1 hcomplete
    (hcloses.fate hpass.ordered hpass.fresh hcomplete)
  have hfinished (start : Nat) : (ofText options text).Finished start ↔
      (atEnd options text.toList).Finished start := finished_ofChars
  have hmem : (Scan.Opened.closedAt n st.position rest).statement ∈
      (ofText options text).statements ↔ (Scan.Opened.closedAt n st.position rest).statement ∈
        (atEnd options text.toList).statements := mem_statements_ofChars
  simp only [hmem, hfinished]
  cases hfate with
  | waits hwaits => cases hwaits
  | covered _ hl => cases hl
  | gone hfree hgone =>
    obtain ⟨o, ho, hfinished⟩ := hgone
    constructor
    · intro hfound
      exact absurd (.inl ⟨_, hfound, rfl⟩) hfree.unfinished
    · intro hnone
      exact absurd hfinished (hnone o ho)
  | kept hfound hfree =>
    exact ⟨fun _ o ho => (hfree o ho).unfinished, fun _ => hfound⟩

/-- The outer statement never ends, so the inner one is found. -/
theorem found_iff_of_closes_unclosed :
    let a : Opened := ⟨['a'], 0, 4, ['_', '.', 'b', '(', ')', ';'], {}⟩
    let b : Opened := ⟨['b'], 4, 8, [')', ';'], { paren := 1 }⟩
    let st : Scan := {
      position := 8, resume := 8, before := some '(', skips := [], stack := [b, a],
      depth := { paren := 2 } }
    Scan.Stands {} "_.a(_.b();".toList st [')', ';'] ∧ Scan.Closes st ')' b [a] ∧
      ¬ (ofText {} "_.a(_.b();").Finished 0 ∧
      ⟨"b", [], none, ⟨4, 10⟩⟩ ∈ (ofText {} "_.a(_.b();").statements := by
  intro a b st
  have hpass : Scan.Stands {} "_.a(_.b();".toList st [')', ';'] :=
    Scan.Stands.start.step.step.step.step.step.step.step.step
  have hcloses : Scan.Closes st ')' b [a] := ⟨Nat.le_refl _, rfl, rfl, ⟨[], rfl, nofun⟩, rfl⟩
  have hfound := (found_iff_of_closes {} "_.a(_.b();" hpass hcloses fun _ => rfl).2
  have hunfinished : ¬ (ofText {} "_.a(_.b();").Finished 0 := by decide +kernel
  refine ⟨hpass, hcloses, hunfinished, ?_⟩
  exact hfound (List.forall_mem_singleton.2 hunfinished)

/-- The outer statement lacks only its semicolon, and the inner one is gone with it. -/
example : ofText {} "_.set('a', _.add('b', 1); )" =
    ⟨[], [⟨⟨0, 27⟩, .missingSemicolon⟩]⟩ := by
  decide +kernel

end Extraction

end StatVars
