import Mathlib.Data.List.TakeWhile
import StatVars.Proofs.SelfContained

/-!
# Commands rendered as statements

Commands that are written as statements between prose are found again, all of them and nothing else.
The pass over the text is followed through its two modes: between statements, where `Quiet` prose
opens none, and within the arguments of one, which are self-contained.
-/

namespace StatVars

open Extraction Extraction.Scan

/-! ## Rendered commands -/

namespace Command

/-- The arguments behind the path with the blanks before them: one before the first, `gap` before
the others. -/
def spacedArgs (gap : Nat) : List Argument → List (List Char)
  | [] => []
  | a :: args =>
    (' ' :: a.toSource.toList) ::
      args.map fun a => List.replicate gap ' ' ++ a.toSource.toList

/-- The list of arguments of the command as a statement. -/
def renderArgs (gap : Nat) (c : Command) : List Char :=
  Json.writeString c.path.toList ++ (spacedArgs gap c.args).flatMap (',' :: ·)

/-- The reason behind a statement, on the rest of its line. -/
def renderReason : Option String → List Char
  | none => []
  | some reason => '/' :: '/' :: reason.toList ++ ['\n']

/-- The command as a statement with its reason. -/
def render (gap : Nat) (c : Command) : List Char :=
  '_' :: '.' :: c.kind.name.toList ++ '(' :: (c.renderArgs gap ++ ')' :: ';' ::
    renderReason c.reason)

/-- A command can be rendered: the number of its arguments fits, each is a text that can stand in a
list, and the reason can stand on a line. -/
structure Renderable (c : Command) : Prop where
  count : c.kind.accepts (c.args.length + 1)
  args : ∀ a ∈ c.args, ∃ text, a = .source text ∧ text.toList ≠ [] ∧
    Text.trim text.toList = text.toList ∧ SelfContained none none {} text.toList
  reason : ∀ reason, c.reason = some reason → reason.toList ≠ [] ∧
    Text.trim reason.toList = reason.toList ∧ '\n' ∉ reason.toList

end Command

/-- No statement starts in the text, where `before` is the character before it. -/
def Quiet (before : Option Char) : List Char → Prop
  | [] => True
  | c :: s => (c = '_' → opening? before s = none) ∧ Quiet (some c) s

/-- The text behind spaces and tabs starts with two slashes. -/
def StartsComment (s : List Char) : Prop :=
  ['/', '/'] <+: s.dropWhile isGap

/-- Commands are rendered in a text with prose around them: no statement starts in the prose, no
verb goes on from it into a statement, and it starts no comment if `bare` says that a statement
without a reason stands before it. -/
inductive Rendering (gap : Nat) : (bare : Bool) → List Command → List Char → Prop
  | done {bare : Bool} {prose} (hquiet : Quiet none prose) (hbare : bare → ¬ StartsComment prose) :
      Rendering gap bare [] prose
  | command {bare : Bool} {prose c commands text} (hquiet : Quiet none prose)
      (hbare : bare → ¬ StartsComment prose)
      (hlast : ∀ x, prose.getLast? = some x → inVerb x = false) (hc : c.Renderable)
      (h : Rendering gap c.reason.isNone commands text) :
      Rendering gap bare (c :: commands) (prose ++ (c.render gap ++ text))

/-! ## Where statements start -/

theorem opening?_of_dot {before : Option Char} (hbefore : before.any inVerb = false) {c : Char}
    (hc : c.isAlpha) (s : List Char) :
    opening? before ('.' :: c :: s) = match s.dropWhile inVerb with
      | '(' :: args => some (c :: s.takeWhile inVerb, args)
      | _ => none := by
  rw [opening?, if_neg (by simp [hbefore])]
  exact if_pos hc

/-- What does not open a statement does not do so with more text behind it, unless a verb goes on in
that or its arguments start there. -/
theorem opening?_append {before : Option Char} {rest t : List Char}
    (h : opening? before rest = none)
    (ht : ∀ x, t.head? = some x → x ≠ '(' ∧ x ≠ '.' ∧ x.isAlpha = false ∧
      (inVerb x → ∀ y, rest.getLast? = some y → inVerb y = false)) :
    opening? before (rest ++ t) = none := by
  cases hbefore : before.any inVerb with
  | true => simp [opening?, hbefore]
  | false =>
    rcases rest with _ | ⟨c, _ | ⟨d, s⟩⟩
    · cases t with
      | nil => exact h
      | cons x t => simp [opening?, (ht x rfl).2.1]
    · cases t with
      | nil => exact h
      | cons x t =>
        have halpha := (ht x rfl).2.2.1
        by_cases hdot : c = '.'
        · subst hdot
          simp [opening?, halpha]
        · simp [opening?, hdot]
    · by_cases hdot : c = '.'
      · subst hdot
        cases hd : d.isAlpha with
        | false => simp [opening?, hd]
        | true =>
          rw [opening?_of_dot hbefore hd] at h
          rw [List.cons_append, List.cons_append, opening?_of_dot hbefore hd, List.dropWhile_append]
          cases hdrop : s.dropWhile inVerb with
          | nil =>
            -- The verb reaches the end of the text, where `t` would have to go on with it.
            cases t with
            | nil => rfl
            | cons x t =>
              obtain ⟨hx, -, -, hverb⟩ := ht x rfl
              have hall : ∀ y ∈ d :: s, inVerb y := List.forall_mem_cons.2
                ⟨by simp [inVerb, Char.isAlphanum, hd], List.dropWhile_eq_nil_iff.1 hdrop⟩
              have hxverb : inVerb x = false := by
                cases hverb' : inVerb x with
                | false => rfl
                | true =>
                  have hlast := hverb hverb' _ (List.getLast?_eq_some_getLast (by simp))
                  rw [List.getLast_cons (by simp), hall _ (List.getLast_mem _)] at hlast
                  cases hlast
              simp [hxverb, hx]
          | cons y s' =>
            rw [hdrop] at h
            have hy : y ≠ '(' := fun hy => by subst hy; cases h
            simp [hy]
      · simp [opening?, hdot]

theorem opening?_verb {before : Option Char} (hbefore : before.any inVerb = false)
    (kind : Command.Kind) (args : List Char) :
    opening? before ('.' :: kind.name.toList ++ '(' :: args) = some (kind.name.toList, args) := by
  cases kind <;> simp [opening?, hbefore, Command.Kind.name, inVerb]

/-! ## Within the arguments of a statement -/

/-- The counts inside one round bracket. -/
def Depth.nest (d : Depth) : Depth :=
  { d with paren := d.paren + 1 }

theorem Depth.past_nest (d : Depth) (c : Char) : d.nest.past c = (d.past c).nest := by
  unfold past nest
  repeat' split
  all_goals simp only [mk.injEq, and_true]
  all_goals omega

theorem Depth.nest_not_isBelow {d : Depth} (hd : d.isBelow {} = false) :
    d.nest.isBelow {} = false := by
  obtain ⟨h1, h2, h3⟩ := not_isBelow_iff.1 hd
  exact not_isBelow_iff.2 ⟨Int.le_add_one h1, h2, h3⟩

theorem Depth.nest_ne {d : Depth} (hd : d.isBelow {} = false) : d.nest ≠ {} := by
  obtain ⟨h1, -, -⟩ := not_isBelow_iff.1 hd
  intro h
  have hparen : d.paren + 1 = 0 := congrArg Depth.paren h
  simp only at h1
  omega

namespace Extraction.Scan

variable {options : Options} {o : Opened} {found : Extraction} {position resume : Nat}
  {b q : Option Char} {d : Depth} {c : Char} {s t : List Char}

/-- Where the pass stands within the arguments of the only opened statement, `d` deep in them. -/
def within (o : Opened) (found : Extraction) (position resume : Nat) (before quote : Option Char)
    (d : Depth) : Scan where
  position := position
  resume := resume
  before := before
  quote := quote
  skips := []
  stack := [o]
  depth := d.nest
  found := found

/-- Where the pass stands between statements. -/
def between (found : Extraction) (position resume : Nat) (before : Option Char) : Scan where
  position := position
  resume := resume
  before := before
  skips := []
  found := found

/-- Characters before the position to go on at are passed over. -/
theorem run_skipped (options : Options) (a t : List Char) (st : Scan)
    (h : st.position + Text.byteLength a ≤ st.resume) :
    run options (a ++ t) st = run options t { st with
      position := st.position + Text.byteLength a, before := a.getLast?.or st.before } := by
  induction a generalizing st with
  | nil => rfl
  | cons c a ih =>
    rw [Text.byteLength_cons] at h
    have hpos := c.utf8Size_pos
    rw [List.cons_append, run_cons, step_skipped _ (by omega), ih _ (by simp only; omega)]
    congr 2
    · simp only [Text.byteLength_cons]; omega
    · cases a <;> simp [List.getLast?_cons]

theorem step_quoted (hresume : resume ≤ position) (hescape : c ≠ '\\') (hline : c ≠ '\n')
    {x : Char} : step options (within o found position resume b (some x) d) c s =
      within o found (position + c.utf8Size) resume (some c)
        (if c = x then none else some x) d := by
  have hvisit : visit options (within o found position resume b (some x) d) c s =
      within o found position resume b (if c = x then none else some x) d := by
    change visitQuoted options _ x c = _
    rw [visitQuoted, if_neg (by simp [hescape]), if_neg (by simp [hline])]
    by_cases hc : c = x
    · rw [if_pos (by simp [hc]), if_pos hc]
      rfl
    · rw [if_neg (by simp [hc]), if_neg hc]
  rw [step_eq _ hresume, hvisit]
  rfl

theorem step_escape (hresume : resume ≤ position) {x : Char} :
    step options (within o found position resume b (some x) d) '\\' s =
      within o found (position + 1) (position + 2) (some '\\') (some x) d := by
  rw [step_eq _ hresume]
  rfl

theorem visit_within : visit options (within o found position resume b none d) c s =
    match if c == '_' then opening? b s else none with
    | some (verb, args) => (within o found position resume b none d).enter verb args
    | none => visitArgument options (within o found position resume b none d) c s := rfl

theorem step_quote (hresume : resume ≤ position) (hc : Text.isQuote c) :
    step options (within o found position resume b none d) c s =
      within o found (position + c.utf8Size) resume (some c) (some c) d := by
  have hstart : c ≠ '_' := fun h => by subst h; cases hc
  rw [step_eq _ hresume, visit_within, if_neg (by simp [hstart])]
  simp only [visitArgument, if_pos hc]
  rfl

theorem visitArgument_plain (ho : o.base = {}) (hc : Text.isQuote c = false)
    (hd : (d.past c).isBelow {} = false) :
    visitArgument options (within o found position resume b none d) c s =
      within o found position resume b none (d.past c) := by
  have hdepth : ({ within o found position resume b none d with
      depth := (within o found position resume b none d).depth.past c } : Scan) =
      within o found position resume b none (d.past c) :=
    congrArg (fun depth => { within o found position resume b none d with depth := depth })
      (Depth.past_nest d c)
  have hstack : settle options s [o] (within o found position resume b none (d.past c)) =
      within o found position resume b none (d.past c) := by
    rw [settle, if_neg, if_neg]
    · rfl
    · rw [ho]
      exact ne_true_of_eq_false (Depth.nest_not_isBelow hd)
    · rw [ho]
      exact Depth.nest_ne hd
  simp only [visitArgument, hc, Bool.false_eq_true, if_false, hdepth]
  split
  · exact hstack
  · rfl

theorem step_plain (options : Options) (found : Extraction) (s : List Char) (ho : o.base = {})
    (hresume : resume ≤ position) (hc : Text.isQuote c = false)
    (hstart : c = '_' → opening? b s = none) (hd : (d.past c).isBelow {} = false) :
    step options (within o found position resume b none d) c s =
      within o found (position + c.utf8Size) resume (some c) none (d.past c) := by
  have hopen : (if c == '_' then opening? b s else none) = none := by
    by_cases h : c = '_' <;> simp [h, hstart]
  rw [step_eq _ hresume, visit_within, hopen]
  simp only [visitArgument_plain ho hc hd]
  rfl

/-- From where it stands the pass goes over a text within the arguments, and is outside of quotes
and brackets behind it and does not pass over more. -/
def GoesOver (options : Options) (o : Opened) (found : Extraction) (t : List Char) (position : Nat)
    (a : List Char) (st : Scan) : Prop :=
  ∃ resume before, resume ≤ position + Text.byteLength a ∧
    run options (a ++ t) st =
      run options t (within o found (position + Text.byteLength a) resume before none {})

theorem GoesOver.cons {st st' : Scan} (hstep : step options st c (s ++ t) = st')
    (h : GoesOver options o found t (position + c.utf8Size) s st') :
    GoesOver options o found t position (c :: s) st := by
  obtain ⟨resume, before, hle, hrun⟩ := h
  rw [Nat.add_assoc, ← Text.byteLength_cons] at hle hrun
  refine ⟨resume, before, hle, ?_⟩
  rw [List.cons_append, run_cons, hstep, hrun]

theorem GoesOver.append {a : List Char} {st : Scan}
    (h : GoesOver options o found (s ++ t) position a st)
    (h' : ∀ resume before, resume ≤ position + Text.byteLength a →
      GoesOver options o found t (position + Text.byteLength a) s
        (within o found (position + Text.byteLength a) resume before none {})) :
    GoesOver options o found t position (a ++ s) st := by
  obtain ⟨resume, before, hle, hrun⟩ := h
  obtain ⟨resume', before', hle', hrun'⟩ := h' resume before hle
  rw [Nat.add_assoc, ← Text.byteLength_append] at hle' hrun'
  refine ⟨resume', before', hle', ?_⟩
  rw [List.append_assoc, hrun, hrun']

/-- **The pass goes over a self-contained argument.** -/
theorem run_within (options : Options) (found : Extraction) (t : List Char) {a : List Char}
    (h : SelfContained b q d a) (ho : o.base = {})
    (ht : ∀ x, t.head? = some x → x = ',' ∨ x = ')') (hresume : resume ≤ position) :
    GoesOver options o found t position a (within o found position resume b q d) := by
  induction h generalizing position resume with
  | @done b => exact ⟨resume, b, hresume, rfl⟩
  | @escaped b q d e s h ih =>
    -- The character behind the backslash is passed over: the pass goes on two bytes further.
    have hskip : step options
        (within o found (position + 1) (position + 2) (some '\\') (some q) d) e (s ++ t) =
          within o found (position + 1 + e.utf8Size) (position + 2) (some e) (some q) d :=
      step_skipped _ (Nat.lt_succ_self (position + 1))
    have hnext : position + 2 ≤ position + 1 + e.utf8Size := by
      have hpos := e.utf8Size_pos
      omega
    exact .cons (step_escape hresume) (.cons hskip (ih hnext))
  | quoted hescape hline h ih =>
    exact .cons (step_quoted hresume hescape hline) (ih (Nat.le_add_right_of_le hresume))
  | quote hc h ih =>
    exact .cons (step_quote hresume hc) (ih (Nat.le_add_right_of_le hresume))
  | @plain b d c s hc hstart hcomma hd h ih =>
    have hstart' : c = '_' → opening? b (s ++ t) = none := by
      intro hc
      apply opening?_append (hstart hc)
      intro x hx
      rcases ht x hx with rfl | rfl <;> exact ⟨by decide, by decide, by decide, nofun⟩
    exact .cons (step_plain options found _ ho hresume hc hstart' hd)
      (ih (Nat.le_add_right_of_le hresume))

/-- It goes over a list of them up to the bracket that closes the statement. -/
theorem run_within_list (options : Options) (found : Extraction) (t : List Char)
    {first : List Char} {rest : List (List Char)} (ho : o.base = {})
    (hfirst : SelfContained b none {} first)
    (hrest : ∀ a ∈ rest, SelfContained (some ',') none {} a) (hresume : resume ≤ position) :
    GoesOver options o found (')' :: t) position (first ++ rest.flatMap (',' :: ·))
      (within o found position resume b none {}) := by
  induction rest generalizing first b position resume with
  | nil =>
    rw [List.flatMap_nil, List.append_nil]
    exact run_within options found _ hfirst ho (fun x hx => .inr (Option.some.inj hx).symm) hresume
  | cons a rest ih =>
    obtain ⟨ha, hrest⟩ := List.forall_mem_cons.1 hrest
    rw [List.flatMap_cons, List.cons_append]
    refine .append (run_within options found _ hfirst ho
      (fun x hx => .inl (Option.some.inj hx).symm) hresume) fun resume before hle => ?_
    exact .cons (step_plain options found _ ho hle rfl nofun rfl)
      (ih ha hrest (Nat.le_add_right_of_le hle))

/-! ## Between statements -/

theorem step_between (options : Options) (found : Extraction) (hresume : resume ≤ position)
    (hstart : c = '_' → opening? b s = none) :
    step options (between found position resume b) c s =
      between found (position + c.utf8Size) resume (some c) := by
  have hopen : (if c == '_' then opening? b s else none) = none := by
    by_cases h : c = '_' <;> simp [h, hstart]
  have hvisit : visit options (between found position resume b) c s =
      between found position resume b := by
    change (match if c == '_' then opening? b s else none with
      | some (verb, args) => (between found position resume b).enter verb args
      | none => between found position resume b) = _
    rw [hopen]
  rw [step_eq _ hresume, hvisit]
  rfl

/-- The pass goes over prose in which no statement starts. -/
theorem run_quiet (options : Options) (found : Extraction) {prose : List Char}
    (hquiet : Quiet b prose) (hresume : resume ≤ position)
    (ht : ∀ x, t.head? = some x → x = '_' ∧ ∀ y, prose.getLast? = some y → inVerb y = false) :
    run options (prose ++ t) (between found position resume b) =
      run options t (between found (position + Text.byteLength prose) resume
        (prose.getLast?.or b)) := by
  induction prose generalizing b position with
  | nil => rfl
  | cons c prose ih =>
    have hstart : c = '_' → opening? b (prose ++ t) = none := fun hc =>
      opening?_append (hquiet.1 hc) fun x hx => by
        obtain ⟨rfl, hlast⟩ := ht x hx
        refine ⟨by decide, by decide, by decide, fun _ y hy => hlast y ?_⟩
        rw [List.getLast?_cons, hy]
        rfl
    have hnext : resume ≤ position + c.utf8Size := Nat.le_add_right_of_le hresume
    rw [List.cons_append, run_cons, step_between options found hresume hstart,
      ih hquiet.2 hnext fun x hx => ?_]
    · rw [Text.byteLength_cons, Nat.add_assoc]
      cases prose <;> simp [List.getLast?_cons]
    · obtain ⟨hx, hlast⟩ := ht x hx
      refine ⟨hx, fun y hy => hlast y ?_⟩
      rw [List.getLast?_cons, hy]
      rfl

/-- A statement of a command that starts at the position. -/
def opened (kind : Command.Kind) (position : Nat) (args : List Char) : Opened :=
  ⟨kind.name.toList, position, position + kind.name.toList.length + 3, args, {}⟩

theorem run_opening (options : Options) (found : Extraction) (kind : Command.Kind)
    (args : List Char) (hbefore : b.any inVerb = false) (hresume : resume ≤ position) :
    run options ('_' :: '.' :: kind.name.toList ++ '(' :: args)
        (between found position resume b) =
      run options args (within (opened kind position args) found
        (position + kind.name.toList.length + 3) (position + kind.name.toList.length + 3)
        (some '(') none {}) := by
  have hlength : Text.byteLength ('.' :: kind.name.toList ++ ['(']) =
      kind.name.toList.length + 2 := by
    cases kind <;> rfl
  have hvisit : visit options (between found position resume b) '_'
      ('.' :: kind.name.toList ++ '(' :: args) =
        (between found position resume b).enter kind.name.toList args := by
    change (match opening? b ('.' :: kind.name.toList ++ '(' :: args) with
      | some (verb, args) => (between found position resume b).enter verb args
      | none => between found position resume b) = _
    rw [opening?_verb hbefore]
  have hstep : step options (between found position resume b) '_'
      ('.' :: kind.name.toList ++ '(' :: args) =
        within (opened kind position args) found (position + 1)
          (position + kind.name.toList.length + 3) (some '_') none {} := by
    rw [step_eq _ hresume, hvisit]
    rfl
  have htext : '.' :: kind.name.toList ++ '(' :: args =
      ('.' :: kind.name.toList ++ ['(']) ++ args := by simp
  have hskip := run_skipped options ('.' :: kind.name.toList ++ ['(']) args
    (within (opened kind position args) found (position + 1)
      (position + kind.name.toList.length + 3) (some '_') none {}) (by
        simp only [within, hlength]
        omega)
  rw [List.cons_append, run_cons, hstep, htext, hskip, hlength, List.getLast?_concat]
  congr 2
  simp only [within]
  omega

/-! ## The end of a statement -/

theorem takeReason_of_not_startsComment (h : ¬ StartsComment s) : takeReason s = (none, 0) := by
  unfold takeReason
  split
  · next t hs => exact absurd (by rw [StartsComment, hs]; exact List.prefix_append ['/', '/'] t) h
  · rfl

theorem takeReason_line {reason : List Char} (hne : reason ≠ [])
    (htrim : Text.trim reason = reason) (hline : '\n' ∉ reason) (t : List Char) :
    takeReason ('/' :: '/' :: (reason ++ '\n' :: t)) =
      (some (.ofList reason), 2 + Text.byteLength reason) := by
  have htake : (reason ++ '\n' :: t).takeWhile (· != '\n') = reason := by
    rw [List.takeWhile_append_of_pos, List.takeWhile_cons]
    · simp
    · intro c hc
      simp only [bne_iff_ne, ne_eq]
      rintro rfl
      exact hline hc
  simp [takeReason, isGap, htake, htrim, hne]

/-- What has been found, with the statement that is closed at the position. -/
def recorded (o : Opened) (found : Extraction) (position : Nat) (reason : Option String)
    (stop : Nat) : Extraction :=
  { found with statements := found.statements ++ [⟨.ofList o.verb,
      Statement.splitArguments (Text.takeBytes (position - o.argsStart) o.args), reason,
      ⟨o.start, stop⟩⟩] }

/-- A statement that is closed where its brackets are even is recorded. -/
theorem step_close (options : Options) (found : Extraction) {reason : Option String} {length : Nat}
    (ho : o.base = {}) (hresume : resume ≤ position) (hreason : takeReason s = (reason, length)) :
    step options (within o found position resume b none {}) ')' (';' :: s) =
      between (recorded o found position reason (position + 2 + length)) (position + 1)
        (position + 2 + length) (some ')') := by
  have hvisit : visit options (within o found position resume b none {}) ')' (';' :: s) =
      between (recorded o found position reason (position + 2 + length)) position
        (position + 2 + length) b := by
    change settle options (';' :: s) [o]
      { within o found position resume b none {} with depth := {} } = _
    rw [settle, if_pos ho.symm]
    simp [flush, finish, hreason, record, Opened.closedAt, within, between, recorded]
  rw [step_eq _ hresume, hvisit]
  rfl

/-- The pass goes over the end of a statement and its reason. -/
theorem run_closing (options : Options) (found : Extraction) (b : Option Char)
    {reason : Option String}
    (hreason : ∀ r, reason = some r → r.toList ≠ [] ∧ Text.trim r.toList = r.toList ∧
      '\n' ∉ r.toList) (ht : reason = none → ¬ StartsComment t) (ho : o.base = {})
    (hresume : resume ≤ position) :
    ∃ stop position' resume' before, position ≤ position' ∧ resume' ≤ position' ∧
      before.any inVerb = false ∧
      run options (')' :: ';' :: (Command.renderReason reason ++ t))
          (within o found position resume b none {}) =
        run options t
          (between (recorded o found position reason stop) position' resume' before) := by
  have hmark : (';' : Char).utf8Size = 1 ∧ ('/' : Char).utf8Size = 1 ∧ ('\n' : Char).utf8Size = 1 :=
    ⟨rfl, rfl, rfl⟩
  cases reason with
  | none =>
    refine ⟨position + 2, position + 2, position + 2, some ';', by omega, Nat.le_refl _, rfl, ?_⟩
    rw [Command.renderReason, List.nil_append, run_cons,
      step_close options found ho hresume (takeReason_of_not_startsComment (ht rfl)), run_cons,
      step_skipped _ (Nat.lt_succ_self (position + 1))]
    rfl
  | some r =>
    obtain ⟨hne, htrim, hline⟩ := hreason r rfl
    have htake : takeReason (Command.renderReason (some r) ++ t) =
        (some r, 2 + Text.byteLength r.toList) := by
      have hread := takeReason_line hne htrim hline t
      rw [String.ofList_toList] at hread
      simpa [Command.renderReason] using hread
    have htext : ';' :: (Command.renderReason (some r) ++ t) =
        (';' :: '/' :: '/' :: r.toList) ++ '\n' :: t := by
      simp [Command.renderReason]
    have hlength : Text.byteLength (';' :: '/' :: '/' :: r.toList) =
        3 + Text.byteLength r.toList := by
      simp only [Text.byteLength_cons, hmark]
      omega
    have hnext : position + 2 + (2 + Text.byteLength r.toList) ≤
        position + 1 + (3 + Text.byteLength r.toList) := by omega
    refine ⟨position + 2 + (2 + Text.byteLength r.toList),
      position + 1 + (3 + Text.byteLength r.toList) + 1,
      position + 2 + (2 + Text.byteLength r.toList), some '\n', by omega, by omega, rfl, ?_⟩
    rw [run_cons, step_close options found ho hresume htake, htext,
      run_skipped options _ ('\n' :: t) _ (by simp only [between, hlength]; omega), hlength,
      run_cons]
    exact congrArg (run options t) (step_between options _ hnext nofun)

end Extraction.Scan

/-! ## Whole statements -/

namespace Command.Renderable

variable {c : Command}

theorem selfContained_spacedArgs (hc : c.Renderable) (gap : Nat) :
    ∀ a ∈ spacedArgs gap c.args, SelfContained (some ',') none {} a := by
  have hargs := hc.args
  intro a ha
  cases hcargs : c.args with
  | nil =>
    rw [hcargs] at ha
    cases ha
  | cons first args =>
    rw [hcargs] at ha hargs
    rcases List.mem_cons.1 ha with rfl | ha
    · obtain ⟨text, rfl, -, -, htext⟩ := hargs first (.head _)
      exact htext.blanks rfl 1
    · obtain ⟨arg, harg, rfl⟩ := List.mem_map.1 ha
      obtain ⟨text, rfl, -, -, htext⟩ := hargs arg (.tail _ harg)
      exact htext.blanks rfl gap

theorem splitArguments_renderArgs (hc : c.Renderable) (gap : Nat) :
    Statement.splitArguments (c.renderArgs gap) =
      .ofList (Json.writeString c.path.toList) :: c.args.map Argument.toSource := by
  have htrim : ∀ a ∈ c.args, ∀ n,
      .ofList (Text.trim (List.replicate n ' ' ++ a.toSource.toList)) = a.toSource := by
    intro a ha n
    obtain ⟨text, rfl, -, htext, -⟩ := hc.args a ha
    rw [Text.trim_replicate, Argument.toSource, htext, String.ofList_toList]
  have hspaced : (spacedArgs gap c.args).map (fun a => String.ofList (Text.trim a)) =
      c.args.map Argument.toSource := by
    cases hargs : c.args with
    | nil => rfl
    | cons first args =>
      rw [hargs, List.forall_mem_cons] at htrim
      simp only [spacedArgs, List.map_cons, List.map_map, List.cons.injEq]
      exact ⟨htrim.1 1, List.map_congr_left fun a ha => htrim.2 a ha gap⟩
  rw [renderArgs, Statement.splitArguments_of_selfContained, List.map_cons, hspaced,
    Json.trim_writeString]
  · refine List.forall_mem_cons.2 ⟨⟨none, .writeString none _⟩, fun a ha => ?_⟩
    exact ⟨_, hc.selfContained_spacedArgs gap a ha⟩
  · rfl

/-- What a rendered command is read as. -/
theorem ofStatement (hc : c.Renderable) (gap : Nat) (span : Span) :
    Command.ofStatement ⟨.ofList c.kind.name.toList, Statement.splitArguments (c.renderArgs gap),
      c.reason, span⟩ = .ok c := by
  have hverb : Kind.ofVerb? (.ofList c.kind.name.toList) = some c.kind := by
    cases c.kind <;> rfl
  have hsource : (c.args.map Argument.toSource).map Argument.source = c.args := by
    rw [List.map_map]
    refine (List.map_congr_left fun a ha => ?_).trans (List.map_id c.args)
    obtain ⟨text, rfl, -⟩ := hc.args a ha
    rfl
  rw [hc.splitArguments_renderArgs gap]
  simp only [Command.ofStatement, hverb, List.length_cons, List.length_map, hc.count, if_true,
    List.headD_cons, List.tail_cons, hsource, pathText_writeString]

end Command.Renderable

namespace Extraction.Scan

/-- **The pass goes over a rendered command** and records one statement, which is read as the
command. -/
theorem run_render (options : Options) (found : Extraction) (gap : Nat) {c : Command}
    (hc : c.Renderable) {position resume : Nat} {b : Option Char} {t : List Char}
    (hbefore : b.any inVerb = false) (ht : c.reason = none → ¬ StartsComment t)
    (hresume : resume ≤ position) :
    ∃ statement position' resume' before, Command.ofStatement statement = .ok c ∧
      statement.span.start = position ∧ position ≤ position' ∧ resume' ≤ position' ∧
      before.any inVerb = false ∧
      run options (c.render gap ++ t) (between found position resume b) =
        run options t (between { found with statements := found.statements ++ [statement] }
          position' resume' before) := by
  have htext : c.render gap ++ t = '_' :: '.' :: c.kind.name.toList ++ '(' ::
      (c.renderArgs gap ++ ')' :: ';' :: (Command.renderReason c.reason ++ t)) := by
    simp [Command.render]
  generalize hargs : c.renderArgs gap ++ ')' :: ';' :: (Command.renderReason c.reason ++ t) =
    args at htext
  have hopening := run_opening options found c.kind args hbefore hresume
  have hover : GoesOver options (opened c.kind position args) found
      (')' :: ';' :: (Command.renderReason c.reason ++ t))
      (position + c.kind.name.toList.length + 3) (c.renderArgs gap)
      (within (opened c.kind position args) found (position + c.kind.name.toList.length + 3)
        (position + c.kind.name.toList.length + 3) (some '(') none {}) :=
    run_within_list options found _ rfl (SelfContained.writeString (some '(') c.path.toList)
      (hc.selfContained_spacedArgs gap) (Nat.le_refl _)
  obtain ⟨resume', before, hle, hlist⟩ := hover
  obtain ⟨stop, position', resume'', before', hposition, hle', hbefore', hclosing⟩ :=
    run_closing options found before hc.reason ht (o := opened c.kind position args) rfl hle
  have htake : Text.takeBytes (position + c.kind.name.toList.length + 3 +
      Text.byteLength (c.renderArgs gap) - (opened c.kind position args).argsStart)
      (opened c.kind position args).args = c.renderArgs gap := by
    rw [opened, ← hargs, Nat.add_sub_cancel_left]
    exact Text.takeBytes_append _ _
  refine ⟨_, position', resume'', before', hc.ofStatement gap ⟨position, stop⟩, rfl, by omega, hle',
    hbefore', ?_⟩
  rw [hargs] at hlist
  rw [htext, hopening, hlist, hclosing, recorded, htake]
  rfl

end Extraction.Scan

/-! ## Texts with prose -/

theorem Quiet.of_before {b b' : Option Char} {prose : List Char} (h : Quiet b prose)
    (hb : b.any inVerb = b'.any inVerb) : Quiet b' prose := by
  cases prose with
  | nil => trivial
  | cons c prose =>
    refine ⟨fun hc => ?_, h.2⟩
    rw [← h.1 hc]
    simp only [opening?, hb]

/-- A statement behind prose does not make it start a comment. -/
theorem StartsComment.of_append {prose t : List Char} (h : StartsComment (prose ++ '_' :: t)) :
    StartsComment prose := by
  induction prose with
  | nil => simp [StartsComment, isGap] at h
  | cons c prose ih =>
    unfold StartsComment at h ih ⊢
    by_cases hgap : isGap c = true
    · rw [List.cons_append, List.dropWhile_cons_of_pos hgap] at h
      rw [List.dropWhile_cons_of_pos hgap]
      exact ih h
    · rw [List.cons_append, List.dropWhile_cons_of_neg hgap] at h
      rw [List.dropWhile_cons_of_neg hgap]
      obtain ⟨hc, h⟩ := List.cons_prefix_cons.1 h
      cases prose with
      | nil => simp at h
      | cons d prose =>
        obtain ⟨hd, -⟩ := List.cons_prefix_cons.1 h
        exact List.cons_prefix_cons.2 ⟨hc, List.cons_prefix_cons.2 ⟨hd, List.nil_prefix⟩⟩

theorem Rendering.not_startsComment {gap : Nat} {commands : List Command} {text : List Char}
    (h : Rendering gap true commands text) : ¬ StartsComment text := by
  cases h with
  | done _ hbare => exact hbare rfl
  | command _ hbare _ _ _ => exact fun h => hbare rfl h.of_append

/-- The pass over a text with rendered commands records a statement for each. -/
theorem Rendering.run (options : Options) {gap : Nat} {bare : Bool} {commands : List Command}
    {text : List Char} (h : Rendering gap bare commands text) (found : Extraction)
    {position resume : Nat} {b : Option Char} (hbefore : b.any inVerb = false)
    (hresume : resume ≤ position) :
    ∃ statements position' resume' before,
      Command.ofStatements statements = (commands, []) ∧
      (∀ s ∈ statements, position ≤ s.span.start) ∧
      statements.Pairwise (fun s t => s.span.start ≤ t.span.start) ∧
      Scan.run options text (between found position resume b) =
        between { found with statements := found.statements ++ statements }
          position' resume' before := by
  induction h generalizing found position resume b with
  | @done bare prose hquiet =>
    have hrun := run_quiet options found (t := []) (hquiet.of_before hbefore.symm) hresume nofun
    rw [List.append_nil] at hrun
    exact ⟨[], _, _, _, rfl, nofun, .nil, by rw [hrun, List.append_nil]; rfl⟩
  | @command bare prose c commands text hquiet hbare hlast hc h ih =>
    have hprose := run_quiet options found (t := c.render gap ++ text)
      (hquiet.of_before hbefore.symm) hresume fun x hx => ⟨(Option.some.inj hx).symm, hlast⟩
    have hbefore' : (prose.getLast?.or b).any inVerb = false := by
      cases hp : prose.getLast? with
      | none => exact hbefore
      | some x => exact hlast x hp
    have hcomment : c.reason = none → ¬ StartsComment text := fun hreason => by
      rw [hreason] at h
      exact h.not_startsComment
    obtain ⟨statement, position₁, resume₁, before₁, hread, hstart, hposition₁, hresume₁, hbefore₁,
      hrender⟩ := run_render options found gap hc hbefore' hcomment
        (Nat.le_add_right_of_le hresume)
    obtain ⟨statements, position₂, resume₂, before₂, hreads, hstarts, hsorted, hrest⟩ :=
      ih { found with statements := found.statements ++ [statement] } hbefore₁ hresume₁
    refine ⟨statement :: statements, position₂, resume₂, before₂, ?_, ?_, ?_, ?_⟩
    · simp only [Command.ofStatements, hread, hreads]
    · refine List.forall_mem_cons.2 ⟨by omega, fun s hs => ?_⟩
      have hs := hstarts s hs
      omega
    · refine .cons (fun s hs => ?_) hsorted
      have hs := hstarts s hs
      omega
    · rw [hprose, hrender, hrest]
      simp only [List.append_assoc, List.cons_append, List.nil_append]

/-- **Rendered commands are read back.** A text in which commands are rendered between prose, with
no part of it left out, gives these commands in their order and no diagnostic. -/
theorem Command.ofStatements_ofText_rendering {options : Options} {gap : Nat}
    {commands : List Command} {text : String} (h : Rendering gap false commands text.toList)
    (hskips : Tag.nestedBlocks options.wrapperTag.toList options.analysisTag.toList text.toList =
      []) :
    (Extraction.ofText options text).diagnostics = [] ∧
      Command.ofStatements (Extraction.ofText options text).statements = (commands, []) := by
  obtain ⟨statements, position, resume, before, hreads, -, hsorted, hrun⟩ :=
    h.run options {} (b := none) rfl (Nat.le_refl 0)
  have htext : Extraction.ofText options text = { statements } := by
    have hsort : statements.mergeSort (fun s t => s.span.start ≤ t.span.start) = statements :=
      List.mergeSort_of_pairwise (hsorted.imp decide_eq_true)
    change Extraction.sorted (Scan.abandon options (Scan.run options text.toList
      { skips := Tag.nestedBlocks _ _ text.toList }) _ .unclosed).found = _
    rw [hskips]
    change Extraction.sorted (Scan.abandon options (Scan.run options text.toList
      (between {} 0 0 none)) _ .unclosed).found = _
    rw [hrun]
    simp [Extraction.sorted, Scan.abandon, Scan.flush, between, hsort]
  rw [htext]
  exact ⟨rfl, hreads⟩

/-- The comma between brackets does not split the argument, and the prose may hold quotes. -/
theorem Command.ofStatements_ofText_rendering_bracketed :
    let push : Command := ⟨.set, "bag", [.source "[1,2]"], some "loot"⟩
    let drop : Command := ⟨.delete, "hp", [], none⟩
    let text := "She said \"go: _.set(\"bag\", [1,2]);//loot\n_.delete(\"hp\"); end"
    (Extraction.ofText {} text).diagnostics = [] ∧
      Command.ofStatements (Extraction.ofText {} text).statements = ([push, drop], []) := by
  intro push drop text
  have hlist : SelfContained none none {} "[1,2]".toList :=
    .plain rfl nofun nofun rfl <| .plain rfl nofun nofun rfl <|
      .plain rfl nofun (by decide) rfl <| .plain rfl nofun nofun rfl <|
      .plain rfl nofun nofun rfl .done
  have hpush : push.Renderable := by
    refine ⟨rfl, fun a ha => ?_, fun r hr => ?_⟩
    · cases List.mem_singleton.1 ha
      exact ⟨_, rfl, by decide, by decide, hlist⟩
    · cases hr
      exact ⟨by decide, by decide, by decide⟩
  have hdrop : drop.Renderable := ⟨rfl, nofun, nofun⟩
  have hend : Rendering 0 true [] " end".toList :=
    .done (by simp [Quiet]) fun _ => by simp [StartsComment, isGap]
  have hrest : Rendering 0 false [drop] ([] ++ (drop.render 0 ++ " end".toList)) :=
    .command trivial nofun nofun hdrop hend
  have hall : Rendering 0 false [push, drop] ("She said \"go: ".toList ++
      (push.render 0 ++ ([] ++ (drop.render 0 ++ " end".toList)))) :=
    .command (by simp [Quiet]) nofun (fun _ h => by cases h; rfl) hpush hrest
  have htext : text.toList = "She said \"go: ".toList ++
      (push.render 0 ++ ([] ++ (drop.render 0 ++ " end".toList))) := by
    decide +kernel
  exact ofStatements_ofText_rendering (htext ▸ hall) (by decide +kernel)

end StatVars
