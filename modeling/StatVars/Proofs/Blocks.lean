import StatVars.Proofs.Pass

/-!
# Blocks that are left out

The blocks to be left out stand in the text one behind the other: `Tag.nestedBlocks_ordered`. So the
search passes over each of them unless a statement is open in front of it, and then a statement in
the block is found only if that one is given up. Main statement: `Extraction.no_statement_in_block`.
-/

namespace StatVars

namespace Text

variable {s t : List Char}

theorem byteLength_le_of_suffix (h : s <:+ t) : byteLength s ≤ byteLength t := by
  obtain ⟨a, rfl⟩ := h
  rw [byteLength_append]
  exact Nat.le_add_left ..

theorem byteLength_takeBytes_le (n : Nat) (s : List Char) : byteLength (takeBytes n s) ≤ n := by
  induction s generalizing n with
  | nil => exact Nat.zero_le n
  | cons c s ih =>
    rw [takeBytes]
    split
    · have := ih (n - c.utf8Size)
      rw [byteLength_cons]
      omega
    · exact Nat.zero_le n

theorem position_le_of_suffix (stop : Nat) (h : s <:+ t) : position stop t ≤ position stop s :=
  Nat.sub_le_sub_left (byteLength_le_of_suffix h) stop

theorem suffix_of_dropWord? {word : List Char} (h : dropWord? word s = some t) : t <:+ s := by
  induction word generalizing s with
  | nil =>
    cases h
    exact List.suffix_refl _
  | cons a word ih =>
    cases s with
    | nil => cases h
    | cons b s =>
      rw [dropWord?] at h
      split at h
      · exact (ih h).trans (List.suffix_cons b s)
      · cases h

end Text

/-! ## The order of blocks -/

namespace Span

/-- The part ends before the other one starts. -/
def Before (r r' : Span) : Prop :=
  r.stop ≤ r'.start

/-- The part lies within the other one. -/
structure Within (r w : Span) : Prop where
  start : w.start ≤ r.start
  ordered : r.start ≤ r.stop
  stop : r.stop ≤ w.stop

end Span

namespace Tag

variable {name s t rest : List Char} {stop fuel : Nat} {mayBeOpen : Bool} {r within : Span}

theorem suffix_of_mem_blankSplits {blanks : List Char} (h : (blanks, t) ∈ blankSplits s) :
    t <:+ s := by
  simp only [blankSplits, List.mem_map, Prod.mk.injEq] at h
  obtain ⟨n, -, -, rfl⟩ := h
  exact List.drop_suffix n s

theorem suffix_of_dropToClose? (h : dropToClose? s = some rest) : rest <:+ s := by
  unfold dropToClose? at h
  split at h
  · cases h
  · next hdrop =>
    cases h
    exact (List.suffix_cons ..).trans (hdrop ▸ List.dropWhile_suffix _)

theorem suffix_of_openTag? (h : openTag? name s = some rest) : rest <:+ s := by
  obtain ⟨⟨blanks, t⟩, hmem, htag⟩ := List.exists_of_findSome?_eq_some h
  simp only [Option.bind_eq_bind, Option.bind_eq_some_iff] at htag
  obtain ⟨behind, hword, htag⟩ := htag
  split at htag
  · exact (suffix_of_dropToClose? htag).trans
      ((Text.suffix_of_dropWord? hword).trans (suffix_of_mem_blankSplits hmem))
  · cases htag

theorem suffix_of_closeTag? (h : closeTag? name s = some rest) : rest <:+ s := by
  unfold closeTag? at h
  split at h
  · next t hslash =>
    obtain ⟨⟨blanks, u⟩, hmem, htag⟩ := List.exists_of_findSome?_eq_some h
    simp only [Option.bind_eq_bind, Option.bind_eq_some_iff] at htag
    obtain ⟨behind, hword, htag⟩ := htag
    split at htag
    · next hclose =>
      cases htag
      have hbehind : rest <:+ behind :=
        (List.suffix_cons ..).trans (hclose ▸ List.dropWhile_suffix _)
      have ht : t <:+ s := (List.suffix_cons ..).trans (hslash ▸ List.dropWhile_suffix _)
      exact hbehind.trans ((Text.suffix_of_dropWord? hword).trans
        ((suffix_of_mem_blankSplits hmem).trans ht))
    · cases htag
  · cases h

/-- A tag and the text behind it are found in the text. -/
theorem suffix_of_find? {tag? : List Char → Option (List Char)}
    (htag : ∀ s rest, tag? s = some rest → rest <:+ s) (h : find? tag? s = some (t, rest)) :
    t <:+ s ∧ rest <:+ t := by
  induction s with
  | nil => cases h
  | cons c s ih =>
    rw [find?] at h
    split at h
    · next hfound =>
      cases h
      split at hfound
      · exact ⟨List.suffix_refl _, (htag s rest hfound).trans (List.suffix_cons c s)⟩
      · cases hfound
    · obtain ⟨ht, hrest⟩ := ih h
      exact ⟨ht.trans (List.suffix_cons c s), hrest⟩

theorem blocksFrom_ordered (name : List Char) (stop : Nat) (mayBeOpen : Bool) (fuel : Nat)
    (s : List Char) :
    (∀ r ∈ blocksFrom name stop mayBeOpen fuel s, r.Within ⟨Text.position stop s, stop⟩) ∧
      (blocksFrom name stop mayBeOpen fuel s).Pairwise Span.Before := by
  induction fuel generalizing s with
  | zero => exact ⟨nofun, .nil⟩
  | succ fuel ih =>
    rw [blocksFrom]
    split
    · exact ⟨nofun, .nil⟩
    · next opening inside hopen =>
      obtain ⟨hopening, hinside⟩ := suffix_of_find? (fun _ _ => suffix_of_openTag?) hopen
      have hstart := Text.position_le_of_suffix stop (hinside.trans hopening)
      dsimp only
      split
      · next closing rest hclose =>
        obtain ⟨hclosing, hrest⟩ := suffix_of_find? (fun _ _ => suffix_of_closeTag?) hclose
        have hordered := Text.position_le_of_suffix stop hclosing
        have hnext := Text.position_le_of_suffix stop hrest
        obtain ⟨hwithin, hbefore⟩ := ih rest
        constructor
        · refine List.forall_mem_cons.2 ⟨⟨hstart, hordered, Nat.sub_le ..⟩, fun r hr => ?_⟩
          obtain ⟨hr, hr', hr''⟩ := hwithin r hr
          exact ⟨hstart.trans (hordered.trans (hnext.trans hr)), hr', hr''⟩
        · exact .cons (fun r hr => hnext.trans (hwithin r hr).start) hbefore
      · split
        · constructor
          · exact List.forall_mem_singleton.2 ⟨hstart, Nat.sub_le .., Nat.le_refl _⟩
          · exact List.pairwise_singleton ..
        · exact ⟨nofun, .nil⟩

theorem within_of_mem_blocks {text : List Char} (hwithin : within.start ≤ within.stop)
    (hr : r ∈ blocks name text within mayBeOpen) : r.Within within := by
  obtain ⟨hstart, hordered, hstop⟩ := (blocksFrom_ordered name within.stop mayBeOpen _ _).1 r hr
  refine ⟨Nat.le_trans ?_ hstart, hordered, hstop⟩
  have hlength := Text.byteLength_takeBytes_le (within.stop - within.start)
    (Text.dropBytes within.start text)
  unfold Text.position Text.sliceBytes
  dsimp only
  omega

theorem blocks_before (name text : List Char) (within : Span) (mayBeOpen : Bool) :
    (blocks name text within mayBeOpen).Pairwise Span.Before :=
  (blocksFrom_ordered ..).2

/-- The blocks to be left out end after they start, and each ends before the next one starts. -/
theorem nestedBlocks_ordered (outer inner text : List Char) :
    (∀ r ∈ nestedBlocks outer inner text, r.start ≤ r.stop) ∧
      (nestedBlocks outer inner text).Pairwise Span.Before := by
  have houter (w : Span) (hw : w ∈ blocks outer text ⟨0, Text.byteLength text⟩ true) :
      w.start ≤ w.stop := (within_of_mem_blocks (Nat.zero_le _) hw).ordered
  constructor
  · intro r hr
    obtain ⟨w, hw, hr⟩ := List.mem_flatMap.1 hr
    exact (within_of_mem_blocks (houter w hw) hr).ordered
  · refine List.pairwise_flatMap.2 ⟨fun w _ => blocks_before .., ?_⟩
    refine (blocks_before outer ..).imp_of_mem fun {w w'} hw hw' hbefore r hr r' hr' => ?_
    have hstop := (within_of_mem_blocks (houter w hw) hr).stop
    have hstart := (within_of_mem_blocks (houter w' hw') hr').start
    exact hstop.trans (hbefore.trans hstart)

end Tag

namespace Extraction

variable {options : Options} {text rest : List Char} {c : Char} {blocks : List Span}

/-- No block holds the place. -/
def Outside (blocks : List Span) (place : Nat) : Prop :=
  ∀ r ∈ blocks, place < r.start ∨ r.stop ≤ place

namespace Scan

variable {st st' : Scan} {r : Span}

/-! ## Passing over blocks -/

theorem mem_skipsAhead (hr : r ∈ st.skips) : r ∈ st.skipsAhead ∨ r.stop ≤ st.position := by
  let passed (r : Span) : Bool := r.stop ≤ st.position
  rw [← List.takeWhile_append_dropWhile (p := passed) (l := st.skips)] at hr
  obtain hr | hr := List.mem_append.1 hr
  · exact .inr (of_decide_eq_true (List.mem_takeWhile_imp (p := passed) hr))
  · exact .inl hr

/-- The blocks that have not been passed are still to be left out. -/
structure Skips (blocks : List Span) (st : Scan) : Prop where
  sublist : st.skips.Sublist blocks
  passed : ∀ r ∈ blocks, r ∈ st.skips ∨ r.stop ≤ max st.position st.resume

namespace Skips

theorem mem_skipsAhead (h : st.Skips blocks) (hresume : st.resume ≤ st.position) (hr : r ∈ blocks) :
    r ∈ st.skipsAhead ∨ r.stop ≤ st.position := by
  obtain hr | hr := h.passed r hr
  · exact Scan.mem_skipsAhead hr
  · exact .inr (hr.trans (max_le (Nat.le_refl _) hresume))

theorem advance_of_eq (h : st.Skips blocks) (hresume : st.resume ≤ st.position)
    (hskips : st'.skips = st.skips) : (st'.advance st.position c).Skips blocks := by
  refine ⟨hskips ▸ h.sublist, fun r hr => ?_⟩
  obtain hr | hr := h.passed r hr
  · exact .inl (hskips ▸ hr)
  · refine .inr (hr.trans ((max_le (Nat.le_refl _) hresume).trans ?_))
    exact (Nat.le_add_right ..).trans (le_max_left ..)

theorem advance_of_ahead (h : st.Skips blocks) (hresume : st.resume ≤ st.position)
    (hskips : st'.skips = st.skipsAhead) : (st'.advance st.position c).Skips blocks := by
  refine ⟨?_, fun r hr => ?_⟩
  · exact (hskips ▸ List.dropWhile_sublist _ : st'.skips.Sublist st.skips).trans h.sublist
  · obtain hr | hr := h.mem_skipsAhead hresume hr
    · exact .inl (hskips ▸ hr)
    · exact .inr (hr.trans ((Nat.le_add_right ..).trans (le_max_left ..)))

theorem visited (h : st.Skips blocks) (hresume : st.resume ≤ st.position)
    (hvisit : Visited options st c rest st') : (st'.advance st.position c).Skips blocks := by
  cases hvisit with
  | escape | quoted | quote | plain | pass | passAll | wait | complete =>
    exact h.advance_of_eq hresume rfl
  | line => exact h.advance_of_eq hresume (by rw [abandon_eq])
  | prose => exact h.advance_of_ahead hresume rfl
  | @leap r skips hquote hstack hskips hr =>
    refine ⟨?_, fun r' hr' => ?_⟩
    · have hsub : (r :: skips).Sublist blocks :=
        hskips ▸ (List.dropWhile_sublist _).trans h.sublist
      exact (List.sublist_cons_self ..).trans hsub
    · obtain hr' | hr' := h.mem_skipsAhead hresume hr'
      · rw [hskips] at hr'
        obtain rfl | hr' := List.mem_cons.1 hr'
        · exact .inr (le_max_right ..)
        · exact .inl hr'
      · exact .inr (hr'.trans ((Nat.le_add_right ..).trans (le_max_left ..)))
  | enter _ _ _ hskips =>
    obtain ⟨-, rfl⟩ | ⟨-, rfl, -⟩ := hskips
    · exact h.advance_of_eq hresume rfl
    · exact h.advance_of_ahead hresume rfl

/-- A statement that starts within no other one starts outside of all blocks. -/
theorem outside_of_visited (h : st.Skips blocks) (hordered : blocks.Pairwise Span.Before)
    (hblocks : ∀ r ∈ blocks, r.start ≤ r.stop) (hresume : st.resume ≤ st.position)
    (hvisit : Visited options st c rest st') (hstack : st.stack = []) (hne : st'.stack ≠ []) :
    Outside blocks st.position := by
  cases hvisit with
  | escape | quoted | leap | prose | quote | plain => exact absurd hstack hne
  | line => exact absurd (by rw [abandon_eq]) hne
  | passAll | complete => exact absurd rfl hne
  | pass _ _ hstack' | wait _ _ hstack' => simp [hstack'] at hstack
  | enter _ _ _ hskips =>
    obtain ⟨hne, -⟩ | ⟨-, -, hhead⟩ := hskips
    · exact absurd hstack hne
    · intro r hr
      refine (h.mem_skipsAhead hresume hr).imp_left fun hr => ?_
      have hsub : st.skipsAhead.Sublist blocks := (List.dropWhile_sublist _).trans h.sublist
      cases hahead : st.skipsAhead with
      | nil => simp [hahead] at hr
      | cons first skips =>
        rw [hahead] at hr hsub hhead
        have hfirst := hhead first rfl
        obtain rfl | hr := List.mem_cons.1 hr
        · exact hfirst
        · have hbefore := (List.pairwise_cons.1 (hordered.sublist hsub)).1 r hr
          exact (hfirst.trans_le (hblocks first (hsub.subset List.mem_cons_self))).trans_le hbefore

end Skips

/-! ## What is found in blocks -/

/-- The outermost open statement starts outside of all blocks, and so does every statement that has
been found, unless it lies within one that was given up. -/
structure Clear (blocks : List Span) (st : Scan) : Prop where
  outermost : ∀ o, st.stack.getLast? = some o → Outside blocks o.start
  found : ∀ s ∈ st.found.statements, Outside blocks s.span.start ∨ ∃ d ∈ st.found.diagnostics,
    d.flaw ≠ .missingSemicolon ∧ Outside blocks d.span.start ∧ d.span.start < s.span.start ∧
      s.span.start < d.span.stop

theorem Changed.diagnostics (h : Changed options st rest st') :
    st.found.diagnostics ⊆ st'.found.diagnostics := by
  intro d hd
  cases h with
  | same _ _ hfound | opened _ _ _ _ hfound => rwa [hfound]
  | dropped _ _ _ _ hfound | closed _ _ _ _ _ hfound =>
    rw [hfound, mem_diagnostics_passOver]
    exact .inl hd
  | completed _ _ _ _ _ hfound | abandoned _ _ _ _ _ _ _ _ hfound =>
    rw [hfound, mem_diagnostics_add, mem_diagnostics_passOver]
    exact .inl (.inl hd)

/-- The outermost statement changes only when there was none. -/
theorem Changed.outermost (h : Changed options st rest st') {o : Opened}
    (ho : st'.stack.getLast? = some o) :
    st.stack.getLast? = some o ∨ st.stack = [] ∧ o.start = st.position := by
  cases h with
  | same hstack => exact .inl (hstack ▸ ho)
  | opened p hp hstack =>
    rw [hstack, List.getLast?_cons] at ho
    cases hlast : st.stack.getLast? with
    | none =>
      rw [hlast] at ho
      cases ho
      exact .inr ⟨List.getLast?_eq_none_iff.1 hlast, hp⟩
    | some q =>
      rw [hlast] at ho
      exact .inl ho
  | dropped inner hstack =>
    rw [hstack, List.getLast?_append, ho]
    exact .inl rfl
  | closed inner p hstack =>
    rw [hstack, List.getLast?_append, List.getLast?_cons, ho]
    exact .inl rfl
  | completed _ _ _ hnone | abandoned _ _ _ _ _ _ hnone =>
    rw [hnone] at ho
    cases ho

theorem Clear.changed (h : st.Clear blocks) (hordered : st.Ordered)
    (hchanged : Changed options st rest st')
    (houtside : st.stack = [] → st'.stack ≠ [] → Outside blocks st.position) :
    st'.Clear blocks := by
  constructor
  · intro o ho
    obtain ho' | ⟨hstack, hstart⟩ := hchanged.outermost ho
    · exact h.outermost o ho'
    · rw [hstart]
      exact houtside hstack fun hnone => by simp [hnone] at ho
  · have hkept : ∀ s ∈ st.found.statements, Outside blocks s.span.start ∨
        ∃ d ∈ st'.found.diagnostics, d.flaw ≠ .missingSemicolon ∧ Outside blocks d.span.start ∧
          d.span.start < s.span.start ∧ s.span.start < d.span.stop := by
      intro s hs
      obtain hs | ⟨d, hd, hwithin⟩ := h.found s hs
      · exact .inl hs
      · exact .inr ⟨d, hchanged.diagnostics hd, hwithin⟩
    intro s hs
    cases hchanged with
    | same _ _ hfound | opened _ _ _ _ hfound | dropped _ _ _ _ hfound
    | closed _ _ _ _ _ hfound =>
      rw [hfound] at hs
      exact hkept s hs
    | completed inner o hstack hnone hpending hfound =>
      rw [hfound, mem_statements_add] at hs
      obtain hs | ⟨k, hk, -, rfl⟩ := hs
      · exact hkept s hs
      · cases List.mem_singleton.1 hk
        exact .inl (h.outermost o (by simp [hstack]))
    | abandoned os stop flaw hos hstop hflaw hnone hpending hfound =>
      rw [hfound, mem_statements_add] at hs
      obtain hs | ⟨k, hk, -, rfl⟩ := hs
      · exact hkept s hs
      · obtain ⟨hbehind, o, ho, hlt⟩ := hordered.pending k (List.mem_reverse.1 hk)
        refine .inr ⟨⟨⟨o.start, stop⟩, flaw⟩, ?_, hflaw, h.outermost o ho, hlt, ?_⟩
        · rw [hfound, mem_diagnostics_add, mem_diagnostics_passOver]
          exact .inl (.inr ⟨o, (hos o).2 (List.mem_of_getLast? ho), rfl⟩)
        · exact hbehind.trans_le hstop

theorem Stands.clear (h : Stands options text st rest) :
    let blocks := Tag.nestedBlocks options.wrapperTag.toList options.analysisTag.toList text
    st.Skips blocks ∧ st.Clear blocks := by
  intro blocks
  obtain ⟨hblocks, hordered⟩ := Tag.nestedBlocks_ordered options.wrapperTag.toList
    options.analysisTag.toList text
  refine invariant (P := fun st _ => st.Skips blocks ∧ st.Clear blocks) ?_ ?_ ?_ h
  · exact ⟨⟨.refl _, fun r hr => .inl hr⟩, nofun, nofun⟩
  · rintro st c rest hresume ⟨hskips, hclear⟩
    refine ⟨⟨hskips.sublist, fun r hr => ?_⟩, hclear.outermost, hclear.found⟩
    refine (hskips.passed r hr).imp_right fun hr => hr.trans ?_
    exact max_le ((Nat.le_add_right ..).trans (le_max_left ..)) (le_max_right ..)
  · rintro st c rest st' hpass hresume hvisit ⟨hskips, hclear⟩
    refine ⟨hskips.visited hresume hvisit, ?_⟩
    exact hclear.changed hpass.ordered (hvisit.changed hpass.ordered) fun hstack hne =>
      hskips.outside_of_visited hordered hblocks hresume hvisit hstack hne

end Scan

/-- **No statement that is found starts in a block, unless one that was open in front of the block
is given up within it or behind it.** -/
theorem no_statement_in_block (options : Options) (text : String) {r : Span}
    (hr : r ∈ Tag.nestedBlocks options.wrapperTag.toList options.analysisTag.toList text.toList)
    (hopen : ∀ d ∈ (ofText options text).diagnostics, d.flaw ≠ .missingSemicolon →
      d.span.start < r.start → d.span.stop ≤ r.start) :
    ∀ s ∈ (ofText options text).statements, s.span.start < r.start ∨ r.stop ≤ s.span.start := by
  intro s hs
  have hclear := (stands_final options text.toList).clear.2.changed (stands_final ..).ordered
    (changed_atEnd options text.toList) fun _ hne => absurd rfl hne
  obtain houtside | ⟨d, hd, hflaw, houtside, hstart, hstop⟩ :=
    hclear.found s (mem_statements_ofChars.1 hs)
  · exact houtside r hr
  · obtain hfront | hbehind := houtside r hr
    · have := hopen d (mem_diagnostics_ofChars.2 hd) hflaw hfront
      exact .inl (hstop.trans_le this)
    · exact .inr (hbehind.trans hstart.le)

/-- The statement in the block is passed over, and the one behind it is found. -/
theorem no_statement_in_block_update :
    let text := "<UpdateVariable><Analysis>_.set('x', 1);</Analysis>_.set('y', 2);</UpdateVariable>"
    (ofText {} text).statements = [⟨"set", ["'y'", "2"], none, ⟨51, 65⟩⟩] ∧
      ∀ s ∈ (ofText {} text).statements, s.span.start < 26 ∨ 40 ≤ s.span.start := by
  intro text
  have hr : ⟨26, 40⟩ ∈ Tag.nestedBlocks "UpdateVariable".toList "Analysis".toList text.toList := by
    decide +kernel
  have hdiagnostics : (ofText {} text).diagnostics = [] := by decide +kernel
  refine ⟨by decide +kernel, no_statement_in_block {} text hr fun d hd => ?_⟩
  rw [hdiagnostics] at hd
  cases hd

/-- A statement in front of the block is given up behind it, and the one in the block is found. -/
example : ofText {}
    "<UpdateVariable>_.set('a', [<Analysis>_.set('x', 1);</Analysis></UpdateVariable>" =
      ⟨[⟨"set", ["'x'", "1"], none, ⟨38, 52⟩⟩], [⟨⟨16, 80⟩, .unclosed⟩]⟩ := by
  decide +kernel

end Extraction

end StatVars
