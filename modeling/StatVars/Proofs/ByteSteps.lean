import StatVars.Proofs.ByteScan

/-!
# The steps of the search over bytes

Where the search over characters looks at a character, the loop over bytes does the same with its
places, `Extraction.Scan.marks`: it reads the same openings, and finishes the same statements, if
the closed ones lie in the text. Main statement: `Extraction.Scan.step?_marks`.
-/

namespace StatVars

namespace Extraction

variable {options : Options} {text rest u v s : List Char} {c d e : Char} {place : Nat}

/-- The places of an opened statement. -/
def Opened.mark (o : Opened) : OpenedMark :=
  ⟨o.start + 2 + Text.byteLength o.verb, o.start, o.start + 3 + Text.byteLength o.verb, o.base⟩

/-- The places of a closed statement. -/
def Closed.mark (k : Closed) : ClosedMark :=
  ⟨k.start + 2 + Text.byteLength k.verb, k.start, k.start + 3 + Text.byteLength k.verb, k.close⟩

/-- Where the loop over bytes stands when the search over characters stands here. -/
def Scan.marks (st : Scan) : ByteScan where
  quote := st.quote
  skips := st.skips
  stack := st.stack.map Opened.mark
  pending := st.pending.map Closed.mark
  depth := st.depth
  found := st.found

/-! ## The opening of a statement -/

namespace ByteScan

open Scan (inVerb isGap)

/-- What the loop reads at a place, where `v` is the text from there on. -/
theorem charAt?_cases (htext : text = u ++ v) (hplace : Text.byteLength u = place) :
    (v = [] ∧ charAt? (Text.bytes text) place = none) ∨
      ∃ c v' e, v = c :: v' ∧ charAt? (Text.bytes text) place = some e ∧ Text.Shows c e := by
  subst htext hplace
  cases v with
  | nil => exact .inl ⟨rfl, by simp [charAt?]⟩
  | cons c v =>
    obtain ⟨b, hb, hshows⟩ := Text.exists_byte u v c.utf8Size_pos
    rw [Nat.add_zero] at hb
    exact .inr ⟨c, v, _, rfl, by rw [charAt?, hb, Option.map_some], hshows⟩

theorem charAt?_eq_some_iff {a : Char} (ha : a.utf8Size = 1) (htext : text = u ++ v)
    (hplace : Text.byteLength u = place) :
    charAt? (Text.bytes text) place = some a ↔ v.head? = some a := by
  obtain ⟨rfl, hat⟩ | ⟨c, v, e, rfl, hat, hshows⟩ := charAt?_cases htext hplace
  · rw [hat, List.head?_nil]
  · rw [hat, List.head?_cons, Option.some_inj, Option.some_inj, hshows.eq_iff ha]

theorem any_charAt? {p : Char → Bool} (hp : ∀ c, p c → c.utf8Size = 1) (htext : text = u ++ v)
    (hplace : Text.byteLength u = place) :
    (charAt? (Text.bytes text) place).any p = v.head?.any p := by
  obtain ⟨rfl, hat⟩ | ⟨c, v, e, rfl, hat, hshows⟩ := charAt?_cases htext hplace
  · rw [hat, List.head?_nil]
  · rw [hat, List.head?_cons, Option.any_some, Option.any_some, hshows.congr hp]

/-- The byte in front of a place is the last one of the character there. -/
theorem any_charAt?_before {p : Char → Bool} (hp : ∀ c, p c → c.utf8Size = 1) (u v : List Char) :
    (0 < Text.byteLength u ∧ (charAt? (Text.bytes (u ++ v)) (Text.byteLength u - 1)).any p) ↔
      u.getLast?.any p := by
  cases u using List.reverseRecOn with
  | nil => simp
  | append_singleton u c =>
    have hpos := c.utf8Size_pos
    obtain ⟨b, hb, hshows⟩ := Text.exists_byte u v (Nat.sub_one_lt_of_lt hpos)
    have hlength : Text.byteLength (u ++ [c]) = Text.byteLength u + c.utf8Size := by simp
    have hsplit : u ++ [c] ++ v = u ++ c :: v := by simp
    rw [hlength, Nat.add_sub_assoc hpos, hsplit, charAt?, hb, Option.map_some, Option.any_some,
      hshows.congr hp, List.getLast?_concat, Option.any_some, and_iff_right]
    exact Nat.add_pos_right _ hpos

theorem verbStop_eq (htext : text = u ++ s) (hplace : Text.byteLength u = place) :
    verbStop (Text.bytes text) place = place + Text.byteLength (s.takeWhile inVerb) := by
  induction s generalizing u place with
  | nil =>
    have hend : ¬ place < (Text.bytes text).length := by simp [htext, hplace]
    rw [verbStop, dif_neg hend]
    rfl
  | cons c s ih =>
    obtain ⟨b, hb, hshows⟩ := Text.exists_byte u s c.utf8Size_pos
    rw [Nat.add_zero, ← htext, hplace] at hb
    obtain ⟨hlt, hb⟩ := List.getElem?_eq_some_iff.1 hb
    have hverb := hshows.congr fun _ => Scan.utf8Size_of_inVerb
    rw [verbStop, dif_pos hlt, hb, hverb]
    cases hc : inVerb c with
    | true =>
      have hsize := Scan.utf8Size_of_inVerb hc
      have htext' : text = (u ++ [c]) ++ s := by simp [htext]
      have hplace' : Text.byteLength (u ++ [c]) = place + 1 := by simp [hplace, hsize]
      rw [if_pos rfl, ih htext' hplace', List.takeWhile_cons_of_pos hc, Text.byteLength_cons, hsize,
        Nat.add_assoc]
    | false =>
      rw [if_neg Bool.false_ne_true, List.takeWhile_cons_of_neg (by simp [hc])]
      rfl

/-- The verb that goes on at a place ends in front of a parenthesis. -/
theorem verb_ends (htext : text = u ++ s) (hplace : Text.byteLength u = place) :
    charAt? (Text.bytes text) (verbStop (Text.bytes text) place) = some '(' ↔
      (s.dropWhile inVerb).head? = some '(' := by
  have hsplit : text = (u ++ s.takeWhile inVerb) ++ s.dropWhile inVerb := by simp [htext]
  rw [verbStop_eq htext hplace]
  exact charAt?_eq_some_iff rfl hsplit (by simp [hplace])

theorem inVerb_of_isAlpha (hc : c.isAlpha) : inVerb c := by
  simp [inVerb, Char.isAlphanum, hc]

/-- **The loop reads an opening out of the bytes as it stands in the text.** -/
theorem opening?_eq (htext : text = u ++ '_' :: rest) (hplace : Text.byteLength u = place) :
    opening? (Text.bytes text) place =
      (Scan.opening? u.getLast? rest).map fun (verb, _) => place + 2 + Text.byteLength verb := by
  have hmark : ('_' : Char).utf8Size = 1 ∧ ('.' : Char).utf8Size = 1 := ⟨rfl, rfl⟩
  have halpha (c : Char) (hc : c.isAlpha) : c.utf8Size = 1 :=
    Scan.utf8Size_of_inVerb (inVerb_of_isAlpha hc)
  have hbefore := any_charAt?_before (fun _ => Scan.utf8Size_of_inVerb) u ('_' :: rest)
  have hpoint : charAt? (Text.bytes text) (place + 1) = some '.' ↔ rest.head? = some '.' :=
    charAt?_eq_some_iff (u := u ++ ['_']) rfl (by simp [htext]) (by simp [hplace, hmark])
  rw [← htext, hplace] at hbefore
  unfold opening? Scan.opening?
  simp only [hbefore, hpoint]
  split
  · rfl
  split
  · next hdot =>
    obtain ⟨r, rfl⟩ := List.head?_eq_some_iff.1 hdot
    have hfirst : (charAt? (Text.bytes text) (place + 2)).any Char.isAlpha =
        r.head?.any Char.isAlpha :=
      any_charAt? (u := u ++ ['_', '.']) halpha (by simp [htext]) (by simp [hplace, hmark])
    rw [hfirst]
    cases r with
    | nil => rfl
    | cons c s =>
      by_cases hc : c.isAlpha
      · have htext' : text = (u ++ ['_', '.', c]) ++ s := by simp [htext]
        have hplace' : Text.byteLength (u ++ ['_', '.', c]) = place + 3 := by
          simp [hplace, hmark, halpha c hc]
        simp only [List.head?_cons, Option.any_some, hc, if_true, verb_ends htext' hplace']
        split
        · next hopen =>
          obtain ⟨args, hargs⟩ := List.head?_eq_some_iff.1 hopen
          have hlength : Text.byteLength (c :: s.takeWhile inVerb) =
              1 + Text.byteLength (s.takeWhile inVerb) := by rw [Text.byteLength_cons, halpha c hc]
          simp only [hargs, Option.map_some, verbStop_eq htext' hplace', hlength, Nat.add_assoc,
            Nat.reduceAdd, ← Nat.add_assoc 2 1]
        · next hopen =>
          split
          · next hargs => simp [hargs] at hopen
          · rfl
      · simp [hc]
  · next hdot =>
    split
    · exact absurd rfl hdot
    · rfl

end ByteScan

/-! ## The slices of a closed statement -/

theorem byteLength_gap (s : List Char) :
    Text.byteLength (s.takeWhile Scan.isGap) = (s.takeWhile Scan.isGap).length := by
  refine Text.byteLength_ascii fun c hc => ?_
  have hgap := List.mem_takeWhile_imp hc
  simp only [Scan.isGap, Bool.or_eq_true, beq_iff_eq] at hgap
  obtain rfl | rfl := hgap
  all_goals rfl

/-- A reason ends between characters. -/
theorem boundary_takeReason (s : List Char) : Text.Boundary (Scan.takeReason s).2 s := by
  unfold Scan.takeReason
  split
  · next comment hdrop =>
    let line := comment.takeWhile (· != '\n')
    refine ⟨s.takeWhile Scan.isGap ++ '/' :: '/' :: line, comment.dropWhile (· != '\n'), ?_, ?_⟩
    · rw [List.append_assoc, List.cons_append, List.cons_append,
        List.takeWhile_append_dropWhile, ← hdrop, List.takeWhile_append_dropWhile]
    · have hmark : ('/' : Char).utf8Size = 1 := rfl
      rw [Text.byteLength_append, Text.byteLength_cons, Text.byteLength_cons, hmark,
        byteLength_gap]
      simp only [line, Nat.add_assoc]
      omega
  · exact ⟨[], s, rfl, rfl⟩

namespace Closed.LiesIn

variable {k : Closed}

theorem slice_rest (h : k.LiesIn text) : Text.sliceFrom? (k.close + 1) text = some k.rest :=
  Text.sliceFrom?_eq_some_iff.2 h.close

theorem slice_behind (h : k.LiesIn text) : Text.sliceFrom? k.behind.1 text = some k.behind.2 := by
  obtain ⟨passed, htext, hpassed⟩ := h.close
  unfold behind
  split
  · next hrest =>
    obtain ⟨rest, hrest⟩ := List.head?_eq_some_iff.1 hrest
    have hmark : (';' : Char).utf8Size = 1 := rfl
    refine Text.sliceFrom?_eq_some_iff.2 ⟨passed ++ [';'], ?_, ?_⟩
    · simp [htext, hrest]
    · simp [hpassed, hmark]
  · exact h.slice_rest

theorem slice_verb (h : k.LiesIn text) :
    Text.slice? (k.start + 2) (k.start + 2 + Text.byteLength k.verb) text = some k.verb := by
  obtain ⟨before, c, htext, hstart, -⟩ := h.call
  refine Text.slice?_eq_some_iff.2
    ⟨before ++ ['_', '.'], '(' :: (k.args ++ c :: k.rest), by simp [htext], ?_, rfl⟩
  rw [Text.byteLength_append, hstart]
  rfl

theorem close_eq (h : k.LiesIn text) :
    k.close = k.start + 3 + Text.byteLength k.verb + Text.byteLength k.args := by
  obtain ⟨⟨before, c, htext, hstart, hclose, -⟩, passed, htext', hpassed⟩ := h
  have hlength := congrArg Text.byteLength (htext'.symm.trans htext)
  have hmark : ('_' : Char).utf8Size = 1 ∧ ('.' : Char).utf8Size = 1 ∧
      ('(' : Char).utf8Size = 1 := ⟨rfl, rfl, rfl⟩
  simp only [Text.byteLength_append, Text.byteLength_cons, hmark, hpassed, hstart,
    Scan.utf8Size_of_isClosing hclose] at hlength
  omega

theorem slice_args (h : k.LiesIn text) :
    Text.slice? (k.start + 3 + Text.byteLength k.verb) k.close text = some k.args := by
  have hclose := h.close_eq
  obtain ⟨before, c, htext, hstart, -⟩ := h.call
  refine Text.slice?_eq_some_iff.2
    ⟨before ++ '_' :: '.' :: (k.verb ++ ['(']), c :: k.rest, by simp [htext], ?_, hclose.symm⟩
  have hmark : ('_' : Char).utf8Size = 1 ∧ ('.' : Char).utf8Size = 1 ∧
      ('(' : Char).utf8Size = 1 := ⟨rfl, rfl, rfl⟩
  simp only [Text.byteLength_append, Text.byteLength_cons, Text.byteLength_nil, hmark, hstart]
  omega

/-- A statement ends between characters, behind its reason. -/
theorem boundary_stop (h : k.LiesIn text) : Text.Boundary k.statement.span.stop text := by
  obtain ⟨u, htext, hu⟩ := Text.sliceFrom?_eq_some_iff.1 h.slice_behind
  obtain ⟨t, v, hbehind, ht⟩ := boundary_takeReason k.behind.2
  refine ⟨u ++ t, v, by rw [htext, hbehind, List.append_assoc], ?_⟩
  rw [Text.byteLength_append, hu, ht]
  rfl

end Closed.LiesIn

/-! ## Complete statements -/

namespace ByteScan

open Scan (isGap)

variable {k : Closed} {found : Extraction}

theorem takeReason?_none {s : List Char} (h : ∀ t, s.dropWhile isGap ≠ '/' :: '/' :: t) :
    takeReason? s = some (none, 0) := by
  unfold takeReason?
  dsimp only
  split
  · next t ht => exact absurd ht (h t)
  · rfl

theorem takeReason_none {s : List Char} (h : ∀ t, s.dropWhile isGap ≠ '/' :: '/' :: t) :
    Scan.takeReason s = (none, 0) := by
  unfold Scan.takeReason
  split
  · next t ht => exact absurd ht (h t)
  · rfl

/-- The line of a comment is a slice. -/
theorem takeReason?_eq (s : List Char) : takeReason? s = some (Scan.takeReason s) := by
  by_cases h : ∃ comment, s.dropWhile isGap = '/' :: '/' :: comment
  · obtain ⟨comment, hdrop⟩ := h
    let line := comment.takeWhile (· != '\n')
    have hline : Text.slice? 0 (Text.byteLength line) comment = some line :=
      Text.slice?_eq_some_iff.2
        ⟨[], comment.dropWhile (· != '\n'), by simp [line], rfl, Nat.zero_add _⟩
    have hgap : Text.byteLength s - Text.byteLength (s.dropWhile isGap) =
        (s.takeWhile isGap).length := by
      have hbytes := Text.byteLength_append (s.takeWhile isGap) (s.dropWhile isGap)
      rw [List.takeWhile_append_dropWhile] at hbytes
      rw [hbytes, Nat.add_sub_cancel, byteLength_gap]
    rw [hdrop] at hgap
    simp only [takeReason?, Scan.takeReason, hdrop, hgap]
    rw [hline, Option.map_some]
  · have hnone := not_exists.1 h
    rw [takeReason?_none hnone, takeReason_none hnone]

theorem cutOut?_eq (h : k.LiesIn text) : cutOut? text k.mark k.behind.1 = some k.statement := by
  have hverb : Text.slice? (k.mark.start + 2) k.mark.verbStop text = some k.verb := h.slice_verb
  have hargs : Text.slice? k.mark.argsStart k.mark.close text = some k.args := h.slice_args
  simp only [cutOut?, h.slice_behind, takeReason?_eq, hverb, hargs, Statement.splitSlices?_eq,
    Option.bind_eq_bind, Option.bind_some, Option.pure_def]
  rfl

/-- **All slices of a closed statement exist, and it is finished as it is in the search over
characters.** -/
theorem finish?_eq (h : k.LiesIn text) (options : Options) (found : Extraction) :
    finish? options text found k.mark = some (found.add options [k], k.stop options) := by
  have hrest : Text.sliceFrom? (k.mark.close + 1) text = some k.rest := h.slice_rest
  have hcut := cutOut?_eq h
  simp only [finish?, hrest, Option.bind_eq_bind, Option.bind_some, Option.pure_def]
  by_cases hsemicolon : k.rest.head? = some ';'
  · rw [Closed.behind, if_pos hsemicolon] at hcut
    have hcomplete : k.isComplete options := by simp [Closed.isComplete, hsemicolon]
    have hcut : cutOut? text k.mark (k.mark.close + 2) = some k.statement := hcut
    simp [hsemicolon, hcut, add, hcomplete, Closed.stop]
  · rw [Closed.behind, if_neg hsemicolon] at hcut
    have hcut : cutOut? text k.mark (k.mark.close + 1) = some k.statement := hcut
    have hcomplete : k.isComplete options = !options.requireSemicolon := by
      simp [Closed.isComplete, hsemicolon]
    rw [if_neg hsemicolon]
    cases hoption : options.requireSemicolon with
    | true => simp [add, hcomplete, hoption, Closed.stop, Closed.flawed, Closed.mark]
    | false => simp [hcut, add, hcomplete, hoption, Closed.stop]

theorem passOver_nil {stop : Nat} {flaw : Flaw} : found.passOver [] stop flaw = found := by
  simp [passOver]

theorem foldlM_finish? {ks : List Closed} (h : ∀ k ∈ ks, k.LiesIn text) (options : Options)
    (found : Extraction) :
    (ks.map Closed.mark).foldlM (fun found k => (finish? options text found k).map (·.1)) found =
      some (found.add options ks) := by
  induction ks generalizing found with
  | nil => rw [add_nil]; rfl
  | cons k ks ih =>
    obtain ⟨hk, hks⟩ := List.forall_mem_cons.1 h
    rw [List.map_cons, List.foldlM_cons, finish?_eq hk]
    exact (ih hks _).trans (congrArg some (add_cons k).symm)

section

variable {st : Scan} {os : List Opened} {stop : Nat} {flaw : Flaw}

theorem flush?_eq (st : Scan) (h : ∀ k ∈ st.pending, k.LiesIn text) :
    flush? options text st.marks = some (Scan.flush options st).marks := by
  have hreverse : st.marks.pending.reverse = st.pending.reverse.map Closed.mark :=
    List.map_reverse.symm
  have hfold := foldlM_finish? (fun k hk => h k (List.mem_reverse.1 hk)) options st.found
  simp only [flush?, hreverse]
  rw [show st.marks.found = st.found from rfl, hfold, Scan.flush_eq]
  rfl

theorem reject_marks (os : List Opened) (stop : Nat) (flaw : Flaw) :
    st.marks.reject (os.map Opened.mark) stop flaw =
      { st with found := st.found.passOver os stop flaw }.marks := by
  simp only [reject, Scan.marks, passOver, List.map_map]
  rfl

theorem abandon?_eq (st : Scan) (h : ∀ k ∈ st.pending, k.LiesIn text) (stop : Nat) (flaw : Flaw) :
    abandon? options text st.marks stop flaw = some (Scan.abandon options st stop flaw).marks := by
  have hreverse : st.marks.stack.reverse = st.stack.reverse.map Opened.mark :=
    List.map_reverse.symm
  rw [abandon?, hreverse, reject_marks, Scan.abandon, Scan.foldl_reject]
  exact flush?_eq { st with
    found := st.found.passOver st.stack.reverse stop flaw, stack := [], depth := {} } h

theorem close_lt_stop (k : Closed) (options : Options) : k.close < k.stop options := by
  unfold Closed.stop
  split
  · exact k.close_lt_behind.trans_le k.behind_le_stop
  · exact Nat.lt_succ_self _

section

variable {top : Opened} {place : Nat}

theorem outside_marks (st : Scan) (top : Opened) :
    (st.marks.pending.dropWhile fun k => top.mark.start < k.start) =
      (st.outside top).map Closed.mark := by
  rw [Scan.outside, Scan.marks, List.dropWhile_map]
  rfl

theorem settle?_completes (hbase : st.depth = top.base) (hpending : ∀ k ∈ st.pending, k.LiesIn text)
    (hclosed : (Scan.Opened.closedAt top place rest).LiesIn text) :
    settle? options text place [top.mark] st.marks =
      some ((Scan.Opened.closedAt top place rest).stop options, { st.marks with
        stack := []
        pending := []
        depth := {}
        found := st.found.add options
          ((st.outside top).reverse ++ [Scan.Opened.closedAt top place rest]) }) := by
  let left : Scan := { st with stack := [], pending := st.outside top }
  have hleft : left.marks = { st.marks with
      stack := []
      pending := st.marks.pending.dropWhile fun k => top.mark.start < k.start } := by
    rw [outside_marks]
    rfl
  have hbase' : st.marks.depth = top.mark.base := hbase
  rw [settle?, if_pos hbase']
  dsimp only
  rw [← hleft, flush?_eq left fun k hk => hpending k (Scan.outside_subset top hk),
    Option.bind_some, Scan.flush_eq, add_append]
  exact congrArg (Option.map _) (finish?_eq hclosed options _)

theorem settle?_waits {os : List OpenedMark} (hbase : st.depth = top.base) (hos : os ≠ []) :
    settle? options text place (top.mark :: os) st.marks = some (place + 1, { st.marks with
      stack := os
      pending := (Scan.Opened.closedAt top place rest :: st.outside top).map Closed.mark }) := by
  have hbase' : st.marks.depth = top.mark.base := hbase
  rw [settle?, if_pos hbase']
  dsimp only
  rw [outside_marks]
  split
  · exact absurd rfl hos
  · rfl

theorem settle?_ended {os : List OpenedMark} (hbase : st.depth ≠ top.base)
    (hbelow : st.depth.isBelow top.base) (hos : os ≠ []) :
    settle? options text place (top.mark :: os) st.marks = settle? options text place os
      { st with found := st.found.passOver [top] (place + 1) .unbalanced }.marks := by
  have hbase' : ¬ st.marks.depth = top.mark.base := hbase
  have hbelow' : st.marks.depth.isBelow top.mark.base := hbelow
  rw [settle?, if_neg hbase', if_pos hbelow', ← reject_marks]
  dsimp only
  split
  · exact absurd rfl hos
  · rfl

theorem settle?_last (hbase : st.depth ≠ top.base) (hbelow : st.depth.isBelow top.base)
    (hpending : ∀ k ∈ st.pending, k.LiesIn text) :
    settle? options text place [top.mark] st.marks = some (place + 1, { st.marks with
      stack := []
      pending := []
      depth := {}
      found := (st.found.passOver [top] (place + 1) .unbalanced).add options
        st.pending.reverse }) := by
  let left : Scan := { st with
    stack := []
    depth := {}
    found := st.found.passOver [top] (place + 1) .unbalanced }
  have hbase' : ¬ st.marks.depth = top.mark.base := hbase
  have hbelow' : st.marks.depth.isBelow top.mark.base := hbelow
  rw [settle?, if_neg hbase', if_pos hbelow']
  dsimp only
  have hleft : flush? options text left.marks = some (Scan.flush options left).marks :=
    flush?_eq left hpending
  rw [Scan.flush_eq] at hleft
  exact congrArg (Option.map _) hleft

/-- **The loop settles the opened statements as the search over characters does**, and goes on where
that goes on. -/
theorem settle?_eq (st : Scan) (hresume : st.resume ≤ st.position)
    (hpending : ∀ k ∈ st.pending, k.LiesIn text)
    (hclosed : ∀ o ∈ os, st.depth = o.base →
      (Scan.Opened.closedAt o st.position rest).LiesIn text) :
    settle? options text st.position (os.map Opened.mark) st.marks =
      some (max (st.position + 1) (Scan.settle options rest os st).resume,
        (Scan.settle options rest os st).marks) := by
  have hnext : max (st.position + 1) st.resume = st.position + 1 :=
    max_eq_left (Nat.le_succ_of_le hresume)
  induction os generalizing st with
  | nil => exact congrArg (fun n => some (n, _)) hnext.symm
  | cons top os ih =>
    obtain ⟨htop, hclosed⟩ := List.forall_mem_cons.1 hclosed
    by_cases hbase : st.depth = top.base
    · cases os with
      | nil =>
        have hstop : st.position < (Scan.Opened.closedAt top st.position rest).stop options :=
          close_lt_stop (Scan.Opened.closedAt top st.position rest) options
        have hmodel : Scan.settle options rest ([] ++ [top]) st = _ :=
          Scan.settle_completes st nofun hbase
        rw [List.nil_append, passOver_nil] at hmodel
        rw [hmodel]
        dsimp only
        rw [max_eq_right (Nat.succ_le_of_lt hstop)]
        exact settle?_completes hbase hpending (htop hbase)
      | cons p os =>
        have hmodel : Scan.settle options rest ([] ++ top :: p :: os) st = _ :=
          Scan.settle_waits st nofun hbase (List.cons_ne_nil _ _)
        rw [List.nil_append, passOver_nil] at hmodel
        rw [hmodel, hnext]
        exact settle?_waits hbase (List.cons_ne_nil _ _)
    by_cases hbelow : st.depth.isBelow top.base
    · cases os with
      | nil =>
        have hmodel : Scan.settle options rest ([] ++ [top]) st = _ :=
          Scan.settle_all st nofun hbelow
        rw [List.nil_append] at hmodel
        rw [hmodel, hnext]
        exact settle?_last hbase hbelow hpending
      | cons p os =>
        have hne : (p :: os).map Opened.mark ≠ [] := List.cons_ne_nil _ _
        rw [Scan.settle_ended hbelow (List.cons_ne_nil _ _), List.map_cons,
          settle?_ended hbase hbelow hne]
        exact ih _ hresume hpending hclosed hnext
    · have hmodel : Scan.settle options rest ([] ++ top :: os) st = _ :=
        Scan.settle_open st nofun hbase (Bool.eq_false_iff.2 hbelow)
      have hbase' : ¬ st.marks.depth = top.mark.base := hbase
      have hbelow' : ¬ st.marks.depth.isBelow top.mark.base := hbelow
      rw [List.nil_append, passOver_nil] at hmodel
      rw [hmodel, hnext, List.map_cons, settle?, if_neg hbase', if_neg hbelow']
      rfl

end

/-! ## What the loop does with a character -/

section

variable {place : Nat} {q : Char}

theorem beq_shown {a : Char} (h : Text.Shows c e) (ha : a.utf8Size = 1) : (e == a) = (c == a) := by
  rw [Bool.eq_iff_iff, beq_iff_eq, beq_iff_eq, h.eq_iff ha]

theorem isQuote_shown (h : Text.Shows c e) : Text.isQuote e = Text.isQuote c :=
  h.congr fun _ => Text.utf8Size_of_isQuote

theorem isClosing_shown (h : Text.Shows c e) : Depth.isClosing e = Depth.isClosing c :=
  h.congr fun _ => Scan.utf8Size_of_isClosing

theorem past_shown (h : Text.Shows c e) (d : Depth) : d.past e = d.past c := by
  simp only [Depth.past, beq_shown h (a := '(') rfl, beq_shown h (a := '\x7b') rfl,
    beq_shown h (a := '[') rfl, beq_shown h (a := ')') rfl, beq_shown h (a := '\x7d') rfl,
    beq_shown h (a := ']') rfl]

theorem quoted?_eq (hshows : Text.Shows c e) (hq : Text.isQuote q)
    (hresume : st.resume ≤ st.position) (hpending : ∀ k ∈ st.pending, k.LiesIn text) :
    quoted? options text st.position st.marks q e =
      some (max (st.position + 1) (Scan.visitQuoted options st q c).resume,
        (Scan.visitQuoted options st q c).marks) := by
  have hnext : max (st.position + 1) st.resume = st.position + 1 :=
    max_eq_left (Nat.le_succ_of_le hresume)
  rw [quoted?, Scan.visitQuoted, beq_shown hshows rfl, beq_shown hshows rfl,
    beq_shown hshows (Text.utf8Size_of_isQuote hq)]
  split
  · have hskip : max (st.position + 1) (st.position + 2) = st.position + 2 :=
      max_eq_right (Nat.le_succ _)
    exact congrArg (fun n => some (n, _)) hskip.symm
  split
  · have hsame : (Scan.abandon options { st with quote := none } st.position
        .unclosedString).resume = st.resume := by rw [Scan.abandon_eq]
    rw [hsame, hnext]
    exact congrArg (Option.map _)
      (abandon?_eq { st with quote := none } hpending st.position .unclosedString)
  split
  all_goals exact congrArg (fun n => some (n, _)) hnext.symm

theorem argument?_eq (hshows : Text.Shows c e) (hresume : st.resume ≤ st.position)
    (hpending : ∀ k ∈ st.pending, k.LiesIn text)
    (hclosed : Depth.isClosing c → ∀ o ∈ st.stack, st.depth.past c = o.base →
      (Scan.Opened.closedAt o st.position rest).LiesIn text) :
    argument? options text st.position st.marks e =
      some (max (st.position + 1) (Scan.visitArgument options st c rest).resume,
        (Scan.visitArgument options st c rest).marks) := by
  have hnext : max (st.position + 1) st.resume = st.position + 1 :=
    max_eq_left (Nat.le_succ_of_le hresume)
  have hclosing : (e == ')' || e == '\x7d' || e == ']') = (c == ')' || c == '\x7d' || c == ']') :=
    isClosing_shown hshows
  rw [argument?, Scan.visitArgument, isQuote_shown hshows, past_shown hshows]
  split
  · next hc =>
    have he : e = c := (hshows.eq_iff (Text.utf8Size_of_isQuote hc)).2 rfl
    rw [he]
    exact congrArg (fun n => some (n, _)) hnext.symm
  dsimp only
  rw [hclosing]
  split
  · next hc =>
    exact settle?_eq { st with depth := st.depth.past c } hresume hpending (hclosed hc)
  · exact congrArg (fun n => some (n, _)) hnext.symm

theorem plain?_eq (st : Scan) (hshows : Text.Shows c e) (hresume : st.resume ≤ st.position)
    (htext : text = u ++ c :: rest) (hplace : Text.byteLength u = st.position)
    (hbefore : u.getLast? = st.before) (hpending : ∀ k ∈ st.pending, k.LiesIn text)
    (hclosed : Depth.isClosing c → ∀ o ∈ st.stack, st.depth.past c = o.base →
      (Scan.Opened.closedAt o st.position rest).LiesIn text) :
    plain? options text st.position st.marks e =
      some (max (st.position + 1) (Scan.visitPlain options st c rest).resume,
        (Scan.visitPlain options st c rest).marks) := by
  have hnext : max (st.position + 1) st.resume = st.position + 1 :=
    max_eq_left (Nat.le_succ_of_le hresume)
  have hopening : (if e == '_' then opening? (Text.bytes text) st.position else none) =
      (if c == '_' then Scan.opening? st.before rest else none).map fun (verb, _) =>
        st.position + 2 + Text.byteLength verb := by
    rw [beq_shown hshows rfl]
    split
    · next hc =>
      obtain rfl := beq_iff_eq.1 hc
      rw [opening?_eq htext hplace, hbefore]
    · rfl
  rw [plain?, hopening, Scan.visitPlain]
  cases hopen : (if c == '_' then Scan.opening? st.before rest else none) with
  | some opened =>
    obtain ⟨verb, args⟩ := opened
    obtain ⟨hc, hopen⟩ := Option.ite_none_right_eq_some.1 hopen
    have hlength := Scan.byteLength_verb (Scan.opening?_eq_some hopen).2
    have hstop : st.position + 2 + verb.length + 1 = st.position + verb.length + 3 := by omega
    have hstop' : st.position + 3 + verb.length = st.position + verb.length + 3 := by omega
    have hskip : max (st.position + 1) (st.position + verb.length + 3) =
        st.position + verb.length + 3 := max_eq_right (by omega)
    simp only [Option.map_some, Scan.enter, enter, Scan.marks, List.map_cons, Opened.mark, hlength,
      hstop, hstop', hskip]
  | none =>
    dsimp only [Option.map_none]
    have hempty : st.marks.stack.isEmpty = st.stack.isEmpty := List.isEmpty_map
    rw [hempty]
    split
    · exact congrArg (fun n => some (n, _)) hnext.symm
    · exact argument?_eq hshows hresume hpending hclosed

end

end

end ByteScan

namespace Scan

variable {st : Scan}

/-! ## What holds where the search over characters stands -/

/-- The character before is the last one of the text behind. -/
theorem Stands.exists_before (h : Stands options text st rest) : ∃ passed,
    text = passed ++ rest ∧ Text.byteLength passed = st.position ∧ passed.getLast? = st.before := by
  induction h with
  | start => exact ⟨[], rfl, rfl, rfl⟩
  | @step st c rest _ ih =>
    obtain ⟨passed, rfl, hposition, -⟩ := ih
    refine ⟨passed ++ [c], by simp, ?_, List.getLast?_concat⟩
    rw [position_step, ← hposition]
    simp

theorem Visited.isQuote {st' : Scan} (h : Visited options st c rest st')
    (hquote : ∀ q, st.quote = some q → Text.isQuote q) :
    ∀ q, st'.quote = some q → Text.isQuote q := by
  cases h with
  | @quoted p hp =>
    intro q hq
    obtain ⟨-, hq⟩ := Option.ite_none_left_eq_some.1 hq
    exact hquote q (hp.trans hq)
  | quote _ _ hc =>
    intro q hq
    cases hq
    exact hc
  | line =>
    intro q hq
    rw [abandon_eq] at hq
    cases hq
  | _ => exact hquote

/-- The strings that the search is in stand between quotes. -/
theorem Stands.isQuote (h : Stands options text st rest) :
    ∀ q, st.quote = some q → Text.isQuote q :=
  invariant (P := fun st _ => ∀ q, st.quote = some q → Text.isQuote q) nofun
    (fun _ _ _ _ h => h) (fun _ _ _ _ _ _ hvisit h => hvisit.isQuote h) h

/-- **Where the search looks at a character, the loop over bytes does the same**, and goes on where
the search does, or at the next byte. -/
theorem step?_marks (h : Stands options text st (c :: rest)) (hresume : st.resume ≤ st.position)
    (hshows : Text.Shows c e) : ByteScan.step? options text st.position st.marks e =
      some (max (st.position + 1) (visit options st c rest).resume,
        (visit options st c rest).marks) := by
  have hpending (k : Closed) (hk : k ∈ st.pending) : k.LiesIn text :=
    (h.succession.passed k hk).1
  obtain ⟨u, htext, hplace, hbefore⟩ := h.exists_before
  unfold ByteScan.step? visit
  rw [show st.marks.quote = st.quote from rfl]
  cases hquote : st.quote with
  | some q => exact ByteScan.quoted?_eq hshows (h.isQuote q hquote) hresume hpending
  | none =>
    have hclosed (hc : Depth.isClosing c) (o : Opened) (ho : o ∈ st.stack)
        (hbase : st.depth.past c = o.base) :
        (Opened.closedAt o st.position rest).LiesIn text := by
      obtain ⟨inner, outer, hstack⟩ := List.append_of_mem ho
      exact closed_liesIn h hresume hquote hc hstack hbase
    have hplain (skips : List Span) : ByteScan.plain? options text st.position
        ({ st with quote := none, skips := skips } : Scan).marks e = _ :=
      ByteScan.plain?_eq { st with quote := none, skips := skips } hshows hresume htext hplace
        hbefore hpending hclosed
    have hempty : st.marks.stack.isEmpty = st.stack.isEmpty := List.isEmpty_map
    dsimp only
    rw [hempty]
    split
    · have hahead : st.marks.skips.dropWhile (fun r => r.stop ≤ st.position) =
          st.skips.dropWhile (fun r => r.stop ≤ st.position) := rfl
      rw [hahead]
      cases hskips : st.skips.dropWhile (fun r => r.stop ≤ st.position) with
      | nil => exact hplain []
      | cons r skips =>
        dsimp only
        split
        · have hhead := List.head?_dropWhile_not (fun r : Span => decide (r.stop ≤ st.position))
            st.skips
          rw [hskips] at hhead
          have hnext : st.position + 1 ≤ r.stop := Nat.lt_of_not_le (of_decide_eq_false hhead)
          rw [max_eq_right hnext]
          rfl
        · exact hplain (r :: skips)
    · exact ByteScan.plain?_eq st hshows hresume htext hplace hbefore hpending hclosed

end Scan

end Extraction

end StatVars
