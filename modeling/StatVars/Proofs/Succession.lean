import StatVars.Proofs.Blocks
import StatVars.Proofs.Closing
import StatVars.Proofs.Recovery

/-!
# How statements follow each other

Statements are found in the order in which they start, and each one starts behind the call of the
one before. It also starts behind the reason of that one if the search has completed it at once,
since the search goes on behind the reason. The reason of a statement that has closed within another
one is read later, when that one is given up, and the search has gone through it like through any
other text: only there can two statements overlap. Main statement: `Extraction.statements_follow`.
-/

namespace StatVars

namespace Extraction

variable {options : Options} {text rest : List Char} {c : Char} {found found' : Extraction}
  {s : Statement} {k : Closed} {place place' position : Nat}

/-! ## The end of a call -/

namespace Closed

/-- The statement is a part of the text, with its closing bracket in front of the rest. -/
structure LiesIn (text : List Char) (k : Closed) : Prop where
  call : k.StandsIn text
  close : ∃ passed, text = passed ++ k.rest ∧ Text.byteLength passed = k.close + 1

/-- The call with its semicolon lies in front of the position, or the call has just ended there. -/
def Passed (k : Closed) (position : Nat) (rest : List Char) : Prop :=
  k.behind.1 ≤ position ∨ k.close + 1 = position ∧ k.rest = rest

theorem behind_of_ne (h : k.rest.head? ≠ some ';') : k.behind.1 = k.close + 1 := by
  rw [behind, if_neg h]

theorem close_lt_behind (k : Closed) : k.close < k.behind.1 := by
  unfold behind
  split
  · exact Nat.lt_add_of_pos_right Nat.two_pos
  · exact Nat.lt_succ_self _

theorem behind_le_stop (k : Closed) : k.behind.1 ≤ k.statement.span.stop :=
  Nat.le_add_right ..

theorem Passed.behind_le (h : k.Passed position rest) (hrest : rest.head? ≠ some ';') :
    k.behind.1 ≤ position := by
  obtain h | ⟨rfl, hk⟩ := h
  · exact h
  · rw [behind_of_ne (hk ▸ hrest)]

theorem Passed.behind_le_add (h : k.Passed position (c :: rest)) :
    k.behind.1 ≤ position + c.utf8Size := by
  by_cases hc : c = ';'
  · subst hc
    have hsize : (';' : Char).utf8Size = 1 := rfl
    obtain h | ⟨rfl, hk⟩ := h
    · exact Nat.le_add_right_of_le h
    · rw [behind, if_pos (by simp [hk]), hsize]
  · exact Nat.le_add_right_of_le (h.behind_le (by simpa using hc))

theorem LiesIn.start_lt (h : k.LiesIn text) : k.start < k.close := by
  obtain ⟨⟨before, c, htext, hstart, -⟩, passed, htext', hpassed⟩ := h
  have hlength := congrArg Text.byteLength (htext'.symm.trans htext)
  have hmark : ('_' : Char).utf8Size = 1 ∧ ('.' : Char).utf8Size = 1 := by decide
  have hpos := c.utf8Size_pos
  simp only [Text.byteLength_append, Text.byteLength_cons, hmark, hpassed, hstart] at hlength
  omega

end Closed

/-! ## What lies in front of a place -/

/-- The statement has closed within one that was given up. -/
def Recovered (found : Extraction) (s : Statement) : Prop :=
  ∃ d ∈ found.diagnostics, d.flaw ≠ .missingSemicolon ∧ d.span.start < s.span.start ∧
    s.span.start < d.span.stop

/-- The call of the statement lies in front of the place, and its reason does too unless the
statement is one that was recovered. -/
structure InFront (text : List Char) (found : Extraction) (s : Statement) (place : Nat) : Prop where
  start : s.span.start < place
  call : ∃ k : Closed, k.LiesIn text ∧ k.statement = s ∧ k.behind.1 ≤ place
  reason : s.span.stop ≤ place ∨ found.Recovered s

theorem Recovered.mono (h : found.Recovered s)
    (hdiagnostics : found.diagnostics ⊆ found'.diagnostics) : found'.Recovered s := by
  obtain ⟨d, hd, hwithin⟩ := h
  exact ⟨d, hdiagnostics hd, hwithin⟩

theorem InFront.mono (h : InFront text found s place)
    (hdiagnostics : found.diagnostics ⊆ found'.diagnostics) (hplace : place ≤ place') :
    InFront text found' s place' := by
  obtain ⟨hstart, ⟨k, hk, hs, hbehind⟩, hreason⟩ := h
  refine ⟨hstart.trans_le hplace, ⟨k, hk, hs, hbehind.trans hplace⟩, ?_⟩
  exact hreason.imp (·.trans hplace) (·.mono hdiagnostics)

/-- A statement lies in front of its end, with its reason. -/
theorem Closed.LiesIn.inFront (h : k.LiesIn text) (hplace : k.statement.span.stop ≤ place) :
    InFront text found k.statement place := by
  have hbehind : k.behind.1 ≤ place := k.behind_le_stop.trans hplace
  have hstart : k.start < k.behind.1 := h.start_lt.trans k.close_lt_behind
  exact ⟨hstart.trans_le hbehind, ⟨k, h, rfl, hbehind⟩, .inl hplace⟩

theorem subset_passOver {os : List Opened} {stop : Nat} {flaw : Flaw} :
    found.diagnostics ⊆ (found.passOver os stop flaw).diagnostics :=
  fun _ hd => mem_diagnostics_passOver.2 (.inl hd)

theorem subset_add {ks : List Closed} :
    found.diagnostics ⊆ (found.add options ks).diagnostics :=
  fun _ hd => mem_diagnostics_add.2 (.inl hd)

namespace Scan

variable {st st' : Scan}

/-- What has been found lies in front of all that is open, that waits and that is still to come, and
what waits does so in front of what is opened behind it. -/
structure Succession (text : List Char) (st : Scan) (rest : List Char) : Prop where
  passed : ∀ k ∈ st.pending, k.LiesIn text ∧ k.Passed st.position rest
  waiting : st.pending.Pairwise fun k l => l.behind.1 ≤ k.start
  opened : ∀ k ∈ st.pending, ∀ o ∈ st.stack, k.start < o.start → k.behind.1 ≤ o.start
  found : st.found.statements.Pairwise fun s t => InFront text st.found s t.span.start
  ahead : ∀ s ∈ st.found.statements, InFront text st.found s (max st.position st.resume) ∧
    (∀ o ∈ st.stack, InFront text st.found s o.start) ∧
    ∀ k ∈ st.pending, InFront text st.found s k.start

theorem utf8Size_of_isClosing (hclose : Depth.isClosing c) : c.utf8Size = 1 := by
  simp only [Depth.isClosing, Bool.or_eq_true, beq_iff_eq] at hclose
  obtain (rfl | rfl) | rfl := hclose
  all_goals rfl

theorem closed_liesIn (hpass : Stands options text st (c :: rest))
    (hresume : st.resume ≤ st.position) (hquote : st.quote = none) (hclose : Depth.isClosing c)
    {inner outer : List Opened} {o : Opened} (hstack : st.stack = inner ++ o :: outer)
    (ho : st.depth.past c = o.base) :
    (Opened.closedAt o st.position rest).LiesIn text := by
  refine ⟨hpass.traced.closed hpass hresume hquote hclose hstack ho, ?_⟩
  obtain ⟨passed, htext, hposition⟩ := hpass.exists_passed
  refine ⟨passed ++ [c], by simp [htext, Opened.closedAt], ?_⟩
  simp [hposition, utf8Size_of_isClosing hclose, Opened.closedAt]

namespace Succession

theorem skip (h : st.Succession text (c :: rest)) :
    (st.advance st.position c).Succession text rest := by
  refine ⟨fun k hk => ?_, h.waiting, h.opened, h.found, fun s hs => ?_⟩
  · exact ⟨(h.passed k hk).1, .inl (h.passed k hk).2.behind_le_add⟩
  · refine ⟨(h.ahead s hs).1.mono (List.Subset.refl _) ?_, (h.ahead s hs).2⟩
    exact max_le ((Nat.le_add_right ..).trans (le_max_left ..)) (le_max_right ..)

/-- What has been found lies in front of the character that the search looks at. -/
theorem inFront (h : st.Succession text rest) (hresume : st.resume ≤ st.position)
    (hs : s ∈ st.found.statements) : InFront text st.found s st.position :=
  (h.ahead s hs).1.mono (List.Subset.refl _) (max_le (Nat.le_refl _) hresume)

/-- With more diagnostics what has been found is still in order. -/
theorem found_mono (h : st.Succession text rest)
    (hdiagnostics : st.found.diagnostics ⊆ found'.diagnostics) :
    st.found.statements.Pairwise fun s t => InFront text found' s t.span.start :=
  h.found.imp fun hfront => hfront.mono hdiagnostics (Nat.le_refl _)

/-- A step that completes no statement and lets none wait. It opens one at most, at its
character. -/
theorem of_opened (h : st.Succession text (c :: rest)) (hresume : st.resume ≤ st.position)
    (hstack : ∀ o ∈ st'.stack, o ∈ st.stack ∨ c = '_' ∧ o.start = st.position)
    (hpending : st'.pending = st.pending) (hfound : st'.found.statements = st.found.statements)
    (hdiagnostics : st.found.diagnostics ⊆ st'.found.diagnostics) :
    (st'.advance st.position c).Succession text rest := by
  have hnext : st.position ≤ st.position + c.utf8Size := Nat.le_add_right ..
  refine ⟨fun k hk => ?_, ?_, fun k hk o ho hlt => ?_, ?_, fun s hs => ⟨?_, fun o ho => ?_, ?_⟩⟩
  · replace hk : k ∈ st.pending := hpending ▸ hk
    exact ⟨(h.passed k hk).1, .inl (h.passed k hk).2.behind_le_add⟩
  · exact hpending ▸ h.waiting
  · replace hk : k ∈ st.pending := hpending ▸ hk
    obtain ho | ⟨rfl, hstart⟩ := hstack o ho
    · exact h.opened k hk o ho hlt
    · rw [hstart]
      exact (h.passed k hk).2.behind_le (by simp)
  · change st'.found.statements.Pairwise fun s t => InFront text st'.found s t.span.start
    rw [hfound]
    exact h.found_mono hdiagnostics
  all_goals replace hs : s ∈ st.found.statements := hfound ▸ hs
  · exact (h.inFront hresume hs).mono hdiagnostics (hnext.trans (le_max_left ..))
  · obtain ho | ⟨-, ho⟩ := hstack o ho
    · exact ((h.ahead s hs).2.1 o ho).mono hdiagnostics (Nat.le_refl _)
    · exact (h.inFront hresume hs).mono hdiagnostics ho.ge
  · intro k hk
    replace hk : k ∈ st.pending := hpending ▸ hk
    exact ((h.ahead s hs).2.2 k hk).mono hdiagnostics (Nat.le_refl _)

/-- When the open statements are given up, what waits is found in its order. -/
theorem abandoned (h : st.Succession text rest) (options : Options) (hordered : st.Ordered)
    {os : List Opened} {stop : Nat} (flaw : Flaw) (hos : ∀ o ∈ st.stack, o ∈ os)
    (hstop : st.position ≤ stop) (hflaw : flaw ≠ .missingSemicolon)
    (hplace : max st.position st.resume ≤ place)
    (hbehind : ∀ k ∈ st.pending, k.behind.1 ≤ place) :
    let found := (st.found.passOver os stop flaw).add options st.pending.reverse
    (found.statements.Pairwise fun s t => InFront text found s t.span.start) ∧
      ∀ s ∈ found.statements, InFront text found s place := by
  intro found
  have hdiagnostics : st.found.diagnostics ⊆ found.diagnostics :=
    fun _ hd => subset_add (subset_passOver hd)
  have hrecovered (k : Closed) (hk : k ∈ st.pending) (n : Nat) (hn : k.behind.1 ≤ n) :
      InFront text found k.statement n := by
    obtain ⟨hposition, o, ho, hlt⟩ := hordered.pending k hk
    have hstart := (h.passed k hk).1.start_lt.trans k.close_lt_behind
    refine ⟨hstart.trans_le hn, ⟨k, (h.passed k hk).1, rfl, hn⟩, .inr ?_⟩
    refine ⟨⟨⟨o.start, stop⟩, flaw⟩, ?_, hflaw, hlt, hposition.trans_le hstop⟩
    exact subset_add (mem_diagnostics_passOver.2
      (.inr ⟨o, hos o (List.mem_of_getLast? ho), rfl⟩))
  have hnew : ((st.pending.reverse.filter (·.isComplete options)).map (·.statement)).Pairwise
      fun s t => InFront text found s t.span.start := by
    rw [List.pairwise_map]
    refine List.Pairwise.sublist List.filter_sublist (List.pairwise_reverse.2 ?_)
    refine h.waiting.imp_of_mem fun {k l} _ hl hle => hrecovered l hl _ hle
  constructor
  · refine List.pairwise_append.2 ⟨h.found_mono hdiagnostics, hnew, fun s hs t ht => ?_⟩
    obtain ⟨k, hk, rfl⟩ := List.mem_map.1 ht
    have hk := List.mem_reverse.1 (List.mem_filter.1 hk).1
    exact ((h.ahead s hs).2.2 k hk).mono hdiagnostics (Nat.le_refl _)
  · intro s hs
    obtain hs | ⟨k, hk, -, rfl⟩ := mem_statements_add.1 hs
    · exact (h.ahead s hs).1.mono hdiagnostics hplace
    · have hk := List.mem_reverse.1 hk
      exact hrecovered k hk _ (hbehind k hk)

/-- A step that gives up all that is open. -/
theorem of_abandoned (h : st.Succession text (c :: rest)) (hordered : st.Ordered)
    (hresume : st.resume ≤ st.position) {os : List Opened} {stop : Nat} (flaw : Flaw)
    (hos : ∀ o ∈ st.stack, o ∈ os) (hstop : st.position ≤ stop)
    (hflaw : flaw ≠ .missingSemicolon) (hstack : st'.stack = []) (hpending : st'.pending = [])
    (hfound : st'.found = (st.found.passOver os stop flaw).add options st.pending.reverse) :
    (st'.advance st.position c).Succession text rest := by
  have hplace : max st.position st.resume ≤ max (st.position + c.utf8Size) st'.resume :=
    (max_le (Nat.le_refl _) hresume).trans ((Nat.le_add_right ..).trans (le_max_left ..))
  obtain ⟨hpairs, hahead⟩ := h.abandoned options hordered flaw hos hstop hflaw hplace
    fun k hk => (h.passed k hk).2.behind_le_add.trans (le_max_left ..)
  rw [← hfound] at hpairs hahead
  refine ⟨?_, ?_, ?_, hpairs, fun s hs => ⟨hahead s hs, ?_, ?_⟩⟩
  all_goals simp [advance, hstack, hpending]

/-- A step that closes a statement within others. -/
theorem of_closed (h : st.Succession text (c :: rest)) (hpass : Stands options text st (c :: rest))
    (hresume : st.resume ≤ st.position) (hquote : st.quote = none) (hclose : Depth.isClosing c)
    {inner outer : List Opened} {o : Opened} (hstack : st.stack = inner ++ o :: outer)
    (ho : st.depth.past c = o.base) (hstack' : st'.stack = outer)
    (hpending : st'.pending = Opened.closedAt o st.position rest :: st.outside o)
    (hfound : st'.found = st.found.passOver inner (st.position + 1) .unbalanced) :
    (st'.advance st.position c).Succession text rest := by
  have hclosed := closed_liesIn hpass hresume hquote hclose hstack ho
  have hstarts := hpass.ordered.stack
  rw [hstack, List.pairwise_append, List.pairwise_cons] at hstarts
  have hmem : o ∈ st.stack := by simp [hstack]
  have houtside (k : Closed) (hk : k ∈ st.outside o) : k.behind.1 ≤ o.start := by
    have hkp := outside_subset o hk
    have hne := hpass.fresh.pending o hmem k hkp
    exact h.opened k hkp o hmem
      (Nat.lt_of_le_of_ne (hpass.ordered.start_le_of_outside hk) hne)
  have hdiagnostics : st.found.diagnostics ⊆ st'.found.diagnostics := by
    rw [hfound]
    exact subset_passOver
  have hstatements : st'.found.statements = st.found.statements := by rw [hfound]; rfl
  have hnext : st.position ≤ st.position + c.utf8Size := Nat.le_add_right ..
  refine ⟨?_, ?_, ?_, ?_, fun s hs => ⟨?_, fun p hp => ?_, ?_⟩⟩
  · change ∀ k ∈ st'.pending, _
    rw [hpending]
    refine List.forall_mem_cons.2 ⟨⟨hclosed, .inr ⟨?_, rfl⟩⟩, fun k hk => ?_⟩
    · change st.position + 1 = st.position + c.utf8Size
      rw [utf8Size_of_isClosing hclose]
    · have hk := h.passed k (outside_subset o hk)
      exact ⟨hk.1, .inl hk.2.behind_le_add⟩
  · change st'.pending.Pairwise _
    rw [hpending]
    refine .cons (fun k hk => houtside k hk) ?_
    exact h.waiting.sublist (List.dropWhile_sublist _)
  · change ∀ k ∈ st'.pending, ∀ p ∈ st'.stack, _
    rw [hpending, hstack']
    refine List.forall_mem_cons.2 ⟨fun p hp hlt => ?_, fun k hk p hp => ?_⟩
    · exact absurd (hstarts.2.1.1 p hp) (Nat.lt_asymm hlt)
    · exact h.opened k (outside_subset o hk) p (by simp [hstack, hp])
  · change st'.found.statements.Pairwise fun s t => InFront text st'.found s t.span.start
    rw [hstatements]
    exact h.found_mono hdiagnostics
  all_goals replace hs : s ∈ st.found.statements := hstatements ▸ hs
  · exact (h.inFront hresume hs).mono hdiagnostics (hnext.trans (le_max_left ..))
  · replace hp : p ∈ outer := hstack' ▸ hp
    exact ((h.ahead s hs).2.1 p (by simp [hstack, hp])).mono hdiagnostics (Nat.le_refl _)
  · change ∀ k ∈ st'.pending, _
    rw [hpending]
    refine List.forall_mem_cons.2 ⟨?_, fun k hk => ?_⟩
    · exact ((h.ahead s hs).2.1 o hmem).mono hdiagnostics (Nat.le_refl _)
    · exact ((h.ahead s hs).2.2 k (outside_subset o hk)).mono hdiagnostics (Nat.le_refl _)

/-- A step that completes the outermost statement. -/
theorem of_completed (h : st.Succession text (c :: rest))
    (hpass : Stands options text st (c :: rest)) (hresume : st.resume ≤ st.position)
    (hquote : st.quote = none) (hclose : Depth.isClosing c) {inner : List Opened} {o : Opened}
    (hstack : st.stack = inner ++ [o]) (ho : st.depth.past c = o.base) (hstack' : st'.stack = [])
    (hpending : st'.pending = [])
    (hresume' : st'.resume = (Opened.closedAt o st.position rest).stop options)
    (hfound : st'.found = (st.found.passOver inner (st.position + 1) .unbalanced).add options
      [Opened.closedAt o st.position rest]) :
    (st'.advance st.position c).Succession text rest := by
  have hclosed := closed_liesIn hpass hresume hquote hclose hstack ho
  have hmem : o ∈ st.stack := by simp [hstack]
  have hdiagnostics : st.found.diagnostics ⊆ st'.found.diagnostics := by
    rw [hfound]
    exact fun _ hd => subset_add (subset_passOver hd)
  have hstatements : ∀ s ∈ st'.found.statements, s ∈ st.found.statements ∨
      (Opened.closedAt o st.position rest).isComplete options ∧
        (Opened.closedAt o st.position rest).statement = s := by
    intro s hs
    rw [hfound, mem_statements_add] at hs
    obtain hs | ⟨k, hk, hcomplete, hs⟩ := hs
    · exact .inl hs
    · cases List.mem_singleton.1 hk
      exact .inr ⟨hcomplete, hs⟩
  refine ⟨?_, ?_, ?_, ?_, fun s hs => ⟨?_, ?_, ?_⟩⟩
  case refine_4 =>
    change st'.found.statements.Pairwise fun s t => InFront text st'.found s t.span.start
    have hsplit : st'.found.statements = st.found.statements ++
        ([Opened.closedAt o st.position rest].filter (·.isComplete options)).map (·.statement) := by
      rw [hfound]
      rfl
    rw [hsplit, List.pairwise_append]
    refine ⟨h.found_mono hdiagnostics, ?_, fun s hs t ht => ?_⟩
    · rw [List.pairwise_map]
      exact .sublist List.filter_sublist (List.pairwise_singleton ..)
    · obtain ⟨k, hk, rfl⟩ := List.mem_map.1 ht
      cases List.mem_singleton.1 (List.mem_filter.1 hk).1
      exact ((h.ahead s hs).2.1 o hmem).mono hdiagnostics (Nat.le_refl _)
  case refine_5 =>
    obtain hs | ⟨hcomplete, rfl⟩ := hstatements s hs
    · exact (h.inFront hresume hs).mono hdiagnostics
        ((Nat.le_add_right ..).trans (le_max_left ..))
    · have hstop : (Opened.closedAt o st.position rest).statement.span.stop ≤ st'.resume := by
        rw [hresume', Closed.stop, if_pos hcomplete]
      exact hclosed.inFront (hstop.trans (le_max_right ..))
  all_goals simp [advance, hstack', hpending]

theorem visited (h : st.Succession text (c :: rest)) (hpass : Stands options text st (c :: rest))
    (hresume : st.resume ≤ st.position) (hvisit : Visited options st c rest st') :
    (st'.advance st.position c).Succession text rest := by
  cases hvisit with
  | escape | quoted | leap | prose | quote | plain =>
    exact h.of_opened hresume (fun o ho => .inl ho) rfl rfl (List.Subset.refl _)
  | line =>
    rw [abandon_eq]
    exact h.of_abandoned hpass.ordered hresume .unclosedString (fun o ho => List.mem_reverse.2 ho)
      (Nat.le_refl _) nofun rfl rfl rfl
  | enter _ hc =>
    refine h.of_opened hresume (fun o ho => ?_) rfl rfl (List.Subset.refl _)
    obtain rfl | ho := List.mem_cons.1 ho
    · exact .inr ⟨hc, rfl⟩
    · exact .inl ho
  | pass _ _ hstack =>
    refine h.of_opened hresume (fun o ho => .inl ?_) rfl rfl subset_passOver
    rw [hstack]
    exact List.mem_append_right _ ho
  | passAll =>
    exact h.of_abandoned hpass.ordered hresume .unbalanced (fun o ho => ho) (Nat.le_succ _) nofun
      rfl rfl rfl
  | wait hquote hclose hstack houter hinner ho =>
    exact h.of_closed hpass hresume hquote hclose hstack ho rfl rfl rfl
  | complete hquote hclose hstack hinner ho =>
    refine h.of_completed hpass hresume hquote hclose hstack ho rfl rfl rfl ?_
    rw [hpass.ordered.outside_outermost hstack]
    rfl

end Succession

theorem Stands.succession (h : Stands options text st rest) : st.Succession text rest :=
  invariant (P := fun st rest => st.Succession text rest) ⟨nofun, .nil, nofun, .nil, nofun⟩
    (fun _ _ _ _ h => h.skip)
    (fun _ _ _ _ hpass hresume hvisit h => h.visited hpass hresume hvisit) h

end Scan

theorem pairwise_inFront_atEnd (options : Options) (text : List Char) :
    (atEnd options text).statements.Pairwise fun s t =>
      InFront text (atEnd options text) s t.span.start := by
  have hpass := stands_final options text
  obtain ⟨passed, htext, hposition⟩ := hpass.exists_passed
  rw [List.append_nil] at htext
  have hplace : ∀ k ∈ (final options text).pending,
      k.behind.1 ≤ max (final options text).position (final options text).resume :=
    fun k hk => ((hpass.succession.passed k hk).2.behind_le nofun).trans (le_max_left ..)
  have hstop : (final options text).position ≤ Text.byteLength text := by
    rw [← hposition, htext]
  exact (hpass.succession.abandoned options hpass.ordered .unclosed
    (fun o ho => List.mem_reverse.2 ho) hstop nofun (Nat.le_refl _) hplace).1

/-- **Each statement that is found starts behind the one found before it.** It starts behind the
call of that one with its semicolon, and behind its reason too, unless that one has been recovered
from a statement that was given up: then it may start within the reason. -/
theorem statements_follow (options : Options) (text : String) :
    (ofText options text).statements.Pairwise fun s t =>
      InFront text.toList (ofText options text) s t.span.start := by
  have hpairs := pairwise_inFront_atEnd options text.toList
  have hsorted : (ofText options text).statements = (atEnd options text.toList).statements := by
    change (ofChars options text.toList).statements = _
    rw [ofChars_eq]
    exact List.mergeSort_of_pairwise (hpairs.imp fun h => decide_eq_true h.start.le)
  have hdiagnostics : (atEnd options text.toList).diagnostics ⊆ (ofText options text).diagnostics :=
    fun d hd => mem_diagnostics_ofChars.2 hd
  rw [hsorted]
  exact hpairs.imp fun h => h.mono hdiagnostics (Nat.le_refl _)

/-- The outer statement is given up, and of the two recovered from it the second one lies in the
reason of the first one. -/
example : ofText {} "_.set('a', _.add('b', 1);//_.add('c', 2);" =
    ⟨[⟨"add", ["'b'", "1"], some "_.add('c', 2);", ⟨11, 41⟩⟩,
      ⟨"add", ["'c'", "2"], none, ⟨27, 41⟩⟩],
      [⟨⟨0, 41⟩, .unclosed⟩]⟩ := by
  cbv

end Extraction

end StatVars
