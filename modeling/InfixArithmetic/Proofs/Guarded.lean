import InfixArithmetic.Proofs.ClimbingSteps
import InfixArithmetic.Proofs.Held

/-!
Climbing as a yard with a guard.  Every open level of climbing stands for one pending operation, so
a yard that refuses an operand above as many pending operations as levels may be open ends as
climbing does: with a program of the expression, or with the same error before the same words.
-/

namespace InfixArithmetic

open Climbing (Outcome nestingLimit)

namespace Yard

def full (y : Yard) : Bool :=
  y.expecting && decide (nestingLimit ≤ y.pending.length)

/-- The words left where one is refused; climbing only peeks at a word behind an operand. -/
def unread (y : Yard) (g : Grammar) (word : String) (rest : List String) : List String :=
  if y.expecting then rest
  else
    match g.readOperation word with
    | .error _ => word :: rest
    | .ok _ => rest

def guarded (g : Grammar) : Yard → List String → Except SyntaxError Program × List String
  | y, [] => if y.full then (.error (.nestingTooDeep nestingLimit), []) else (y.finish, [])
  | y, word :: rest =>
      if y.full then (.error (.nestingTooDeep nestingLimit), word :: rest)
      else
        match y.read g word with
        | .error cause => (.error cause, y.unread g word rest)
        | .ok next => guarded g next rest

variable {g : Grammar} {y z : Yard} {word : String}

theorem guarded_full (h : y.full = true) (words : List String) :
    guarded g y words = (.error (.nestingTooDeep nestingLimit), words) := by
  cases words <;> simp [guarded, h]

theorem guarded_nil (h : y.full = false) : guarded g y [] = (y.finish, []) := by
  simp [guarded, h]

theorem guarded_step (h : y.full = false) (hr : y.read g word = .ok z) (rest : List String) :
    guarded g y (word :: rest) = guarded g z rest := by
  simp [guarded, h, hr]

theorem guarded_refused (h : y.full = false) {cause : SyntaxError}
    (hr : y.read g word = .error cause) (rest : List String) :
    guarded g y (word :: rest) = (.error cause, y.unread g word rest) := by
  simp [guarded, h, hr]

theorem full_of_ready (h : y.expecting = false) : y.full = false := by
  simp [full, h]

end Yard

open Yard

variable {g : Grammar} {base start : Yard}

/-- No operation that comes next, closings apart, climbs above the floor of a pending one. -/
def Covers (g : Grammar) (ops : List Operation) (words : List String) : Prop :=
  ∀ word rest op, words = word :: rest → g.readOperation word = .ok op → op.closesGroup = false →
    ∀ p ∈ ops, op.priority ≤ p.floor

theorem covers_nil (words : List String) : Covers g [] words := by
  intro word rest op _ _ _ p hp
  cases hp

theorem covers_append {ops : List Operation} {p : Operation} {words : List String}
    (ho : Covers g ops words) (hp : Halts g p.floor words) : Covers g (ops ++ [p]) words := by
  intro word rest op hw hr hc q hq
  rcases List.mem_append.mp hq with hq | hq
  · exact ho word rest op hw hr hc q hq
  · obtain rfl := List.mem_singleton.mp hq
    obtain ⟨found, hf, hle⟩ := hp word rest hw
    obtain rfl : found = op := Except.ok.inj (hf.symm.trans hr)
    exact hle

theorem closing_of_halts (hg : g.Aligned) {words : List String} (hs : Halts g 0 words)
    {word : String} {rest : List String} (hw : words = word :: rest) :
    ∃ op, g.readOperation word = .ok op ∧ op.closesGroup = true ∧ word = closeGroup := by
  obtain ⟨op, hr, hle⟩ := hs word rest hw
  obtain ⟨hop, hname⟩ := Grammar.readOperation_eq_ok hr
  have hc : op.closesGroup = true := by
    cases hc : op.closesGroup with
    | true => rfl
    | false => exact absurd hle (by simpa using hg.above op hop hc)
  exact ⟨op, hr, hc, hname.symm.trans (Trailing.closesGroup_iff.mp hc).2⟩

/-- What climbing makes of the words of `c` is what the guarded yard `start` makes of them: an
expression read that way is held above `base`. -/
def Tracks (g : Grammar) (base start : Yard) (c : Cursor) (stop : List String → Prop) :
    Outcome → Prop
  | (.error cause, after) => guarded g start c.words = (.error cause, after.words)
  | (.ok e, after) =>
      stop after.words ∧ ∃ ops z, Holds g base e ops z ∧ Covers g ops after.words ∧
        guarded g start c.words = guarded g z after.words

theorem tracks_andThen {base' : Yard} {c : Cursor} {stop stop' : List String → Prop} {o : Outcome}
    {next : Expression → Cursor → Outcome} (h : Tracks g base' start c stop o)
    (hn : ∀ e ops z after, o = (.ok e, after) → stop after.words → Holds g base' e ops z →
      Covers g ops after.words → Tracks g base z after stop' (next e after)) :
    Tracks g base start c stop' (o.andThen next) := by
  obtain ⟨r, after⟩ := o
  cases r with
  | error cause => exact h
  | ok e =>
      obtain ⟨hs, ops, z, hh, hc, hg⟩ := h
      have ht := hn e ops z after rfl hs hh hc
      simp only [Outcome.andThen]
      generalize next e after = o at ht
      obtain ⟨r, last⟩ := o
      cases r with
      | error cause => exact hg.trans ht
      | ok e' =>
          obtain ⟨hs', ops', z', hh', hc', hg'⟩ := ht
          exact ⟨hs', ops', z', hh', hc', hg.trans hg'⟩

theorem tracks_map {base' start' : Yard} {c c' : Cursor} {stop stop' : List String → Prop}
    {f : Expression → Expression} {o : Outcome} (h : Tracks g base' start' c' stop o)
    (hs : guarded g start c.words = guarded g start' c'.words)
    (hh : ∀ e ops z words, stop words → Holds g base' e ops z → Covers g ops words →
      stop' words ∧ ∃ ops', Holds g base (f e) ops' z ∧ Covers g ops' words) :
    Tracks g base start c stop' (o.map f) := by
  obtain ⟨r, after⟩ := o
  cases r with
  | error cause => exact hs.trans h
  | ok e =>
      obtain ⟨hstop, ops, z, hheld, hcov, hg⟩ := h
      obtain ⟨hstop', ops', hheld', hcov'⟩ := hh e ops z after.words hstop hheld hcov
      exact ⟨hstop', ops', z, hheld', hcov', hs.trans hg⟩

/-- A level of climbing with this floor opens where the yard has come to. -/
structure Enters (g : Grammar) (y : Yard) (floor : Priority) (c : Cursor) : Prop where
  expecting : y.expecting = true
  floor : y.floor = floor
  waits : y.Waits g
  depth : c.depth = y.pending.length
  touched : c.words = [] → y.isUntouched = false

structure Simulates (g : Grammar) (bound : Nat) (level : Priority → Cursor → Outcome) : Prop where
  depth : ∀ floor c, (level floor c).2.depth = c.depth
  forward : Climbing.Forward level
  tracks : ∀ floor c y, c.words.length ≤ bound → Enters g y floor c →
    Tracks g y y c (Halts g floor) (level floor c)

theorem enters_push {y : Yard} {op : Operation} {floor : Priority} {c : Cursor}
    (hy : y.Waits g) (hop : g.Pends op) (hf : op.floor = floor)
    (hd : c.depth = y.pending.length + 1) : Enters g (y.push op) floor c where
  expecting := rfl
  floor := hf
  waits := waits_of_pending rfl hy hop
  depth := hd
  touched := fun _ => rfl

theorem tracks_end {y : Yard} {c : Cursor} {stop : List String → Prop} (hc : c.words = [])
    (hy : y.expecting = true) (hf : y.full = false) (ht : y.isUntouched = false) :
    Tracks g y y c stop (.error .unexpectedEnd, c) := by
  have hfin : y.finish = .error .unexpectedEnd := by simp [Yard.finish, hy, ht]
  simp only [Tracks, hc, guarded_nil hf, hfin]

theorem tracks_nested {y : Yard} {floor : Priority} {c : Cursor} {stop : List String → Prop}
    {level : Cursor → Outcome} (he : Enters g y floor c)
    (h : y.full = false → Tracks g y y c.descend stop (level c.descend)) :
    Tracks g y y c stop (Climbing.nested level c) := by
  rw [Climbing.nested]
  by_cases hd : nestingLimit ≤ c.depth
  · have hf : y.full = true := by simpa [full, he.expecting, he.depth] using hd
    rw [if_pos hd]
    exact guarded_full hf c.words
  · have hf : y.full = false := by simpa [full, he.expecting, he.depth] using hd
    rw [if_neg hd]
    have ht := h hf
    generalize level c.descend = o at ht
    obtain ⟨r, after⟩ := o
    cases r with
    | error cause => exact ht
    | ok e => exact ht

section

variable {bound : Nat} {level : Priority → Cursor → Outcome} {y z : Yard} {c : Cursor}

theorem tracks_close (hg : g.Aligned) {op : Leading} (ho : op.opensGroup = true) {e : Expression}
    {ops : List Operation} (h : Holds g (y.push (.leading op)) e ops z)
    (hs : Halts g 0 c.words) : Tracks g y z c (fun _ => True) (Climbing.close e c) := by
  have hf := full_of_ready h.ready
  cases hw : c.words with
  | nil =>
      rw [Climbing.close_nil hw]
      simp only [Tracks, hw, guarded_nil hf, h.finish_open ho]
  | cons word rest =>
      obtain ⟨next, hr, hc, rfl⟩ := closing_of_halts hg hs hw
      obtain ⟨z', hread, hheld⟩ := h.read_close ho hr hc
      rw [Climbing.close_closing hw]
      refine ⟨trivial, [], z', hheld, covers_nil _, ?_⟩
      rw [hw]
      exact guarded_step hf hread rest

theorem tracks_operand (hg : g.Aligned) (hl : Simulates g bound level) (hy : y.expecting = true)
    (hfull : y.full = false) (hwait : y.Waits g) (ht : c.words = [] → y.isUntouched = false)
    (hd : c.depth = y.pending.length + 1) (hb : c.words.length ≤ bound + 1) :
    Tracks g y y c (fun _ => True) (Climbing.operand g level c) := by
  cases hw : c.words with
  | nil =>
      rw [Climbing.operand_nil hw]
      exact tracks_end hw hy hfull (ht hw)
  | cons word rest =>
      have hrest : rest.length ≤ bound := by simpa [hw] using hb
      cases ho : g.readOperand word with
      | error cause =>
          rw [Climbing.operand_error hw ho]
          have hs := guarded_refused hfull (read_operand_error hy ho) rest
          simpa [Tracks, hw, unread, hy, Cursor.moveTo] using hs
      | ok found =>
          cases found with
          | none =>
              rw [Climbing.operand_value hw ho]
              obtain ⟨z, hread, hheld⟩ := read_value hy ho
              refine ⟨trivial, [], z, hheld, covers_nil _, ?_⟩
              rw [hw]
              exact guarded_step hfull hread rest
          | some op =>
              have hop := (Grammar.readOperand_eq_some ho).1
              have hs : guarded g y c.words = guarded g (y.push (.leading op)) rest := by
                rw [hw]
                exact guarded_step hfull (read_leading hy ho) rest
              have hpends : g.Pends (.leading op) := hop
              have henter : Enters g (y.push (.leading op)) (Operation.leading op).floor
                  (c.moveTo rest) := enters_push hwait hpends rfl hd
              have hlevel := hl.tracks _ _ _ hrest henter
              cases hgroup : op.opensGroup with
              | true =>
                  rw [Operation.floor_group hgroup] at hlevel
                  rw [Climbing.operand_group hw ho hgroup]
                  have hclose := tracks_andThen hlevel fun e ops z after _ hstop hheld _ =>
                    tracks_close hg hgroup hheld hstop
                  refine tracks_map hclose hs ?_
                  intro e ops z words _ hheld hcov
                  rw [hg.opening op hop hgroup]
                  exact ⟨trivial, ops, hheld, hcov⟩
              | false =>
                  rw [Climbing.operand_leading hw ho hgroup, ← Operation.floor_leading hgroup]
                  refine tracks_map hlevel hs ?_
                  intro e ops z words hstop hheld hcov
                  exact ⟨trivial, _, hheld.leading hop hgroup, covers_append hcov hstop⟩

theorem tracks_fold (hg : g.Aligned) (hl : Simulates g bound level) (hwait : y.Waits g)
    {e : Expression} {ops : List Operation} (h : Holds g y e ops z) {word : String}
    {rest : List String} (hw : c.words = word :: rest) (hb : rest.length ≤ bound)
    (hd : c.depth = y.pending.length + 1) {op : Trailing} (hr : g.readOperation word = .ok op)
    (hc : op.closesGroup = false) (hle : ∀ p ∈ ops, op.priority ≤ p.floor)
    (hlt : y.floor < op.priority) :
    Tracks g y z c (fun _ => True) (Climbing.fold op level e (c.moveTo rest)) := by
  have hfull := full_of_ready h.ready
  have hop := (Grammar.readOperation_eq_ok hr).1
  cases hf : op.form with
  | behind wrap =>
      rw [Climbing.fold_behind hf]
      obtain ⟨z', hread, hheld⟩ := h.read_behind hg hwait hr hc hf hle hlt
      refine ⟨trivial, [], z', hheld, covers_nil _, ?_⟩
      rw [hw]
      exact guarded_step hfull hread rest
  | between a f =>
      rw [Climbing.fold_between hf]
      obtain ⟨z', hread, hexp, hpend, hright⟩ := h.read_between hg hwait hr hf hle hlt
      have hpends : g.Pends (.trailing op) := ⟨hop, a, f, hf⟩
      have henter : Enters g z' (Operation.trailing op).floor (c.moveTo rest) := by
        refine ⟨hexp, floor_of_pending hpend, waits_of_pending hpend hwait hpends, ?_, ?_⟩
        · simpa [hpend, Cursor.moveTo] using hd
        · simp [isUntouched, hpend]
      have hlevel := hl.tracks _ _ _ hb henter
      have hs : guarded g z c.words = guarded g z' rest := by
        rw [hw]
        exact guarded_step hfull hread rest
      rw [← Operation.floor_between hf]
      refine tracks_map hlevel hs ?_
      intro right ops' z'' words hstop hheld hcov
      exact ⟨trivial, _, hright right ops' z'' hheld, covers_append hcov hstop⟩

theorem floor_nonneg (hg : g.Aligned) (hy : y.Waits g) : 0 ≤ y.floor := by
  cases hp : y.pending with
  | nil => simp [Yard.floor, hp]
  | cons p rest =>
      rw [floor_of_pending hp]
      exact hg.floor_nonneg p (hy p (by simp [hp]))

theorem closesGroup_of_floor_lt (hg : g.Aligned) (hy : y.Waits g) {op : Trailing}
    (hop : op ∈ g.trailing) (hlt : y.floor < op.priority) : op.closesGroup = false := by
  cases hc : op.closesGroup with
  | false => rfl
  | true =>
      have hlow := (hg.closing op hop (Trailing.closesGroup_iff.mp hc).2).2
      have hle := Int32.le_trans hlow (floor_nonneg hg hy)
      exact absurd hlt (by simpa using hle)

theorem tracks_climb (hg : g.Aligned) (hl : Simulates g bound level) (hwait : y.Waits g)
    {e : Expression} {ops : List Operation} (h : Holds g y e ops z)
    (hcov : Covers g ops c.words) {count : Nat} (hn : c.words.length ≤ count)
    (hb : count ≤ bound) (hd : c.depth = y.pending.length + 1) :
    Tracks g y z c (Halts g y.floor) (Climbing.climb g level y.floor count e c) := by
  induction count generalizing e ops z c with
  | zero =>
      have hw : c.words = [] := List.eq_nil_of_length_eq_zero (Nat.le_zero.mp hn)
      rw [Climbing.climb_nil hw]
      exact ⟨hw ▸ halts_nil g y.floor, ops, z, h, hcov, rfl⟩
  | succ count ih =>
      cases hw : c.words with
      | nil =>
          rw [Climbing.climb_nil hw]
          exact ⟨hw ▸ halts_nil g y.floor, ops, z, h, hcov, rfl⟩
      | cons word rest =>
          cases hr : g.readOperation word with
          | error cause =>
              rw [Climbing.climb_error hw hr]
              have hs := guarded_refused (full_of_ready h.ready)
                (read_operation_error h.ready hr) rest
              simpa [Tracks, hw, hr, unread, h.ready] using hs
          | ok op =>
              have hop := (Grammar.readOperation_eq_ok hr).1
              by_cases hle : op.priority ≤ y.floor
              · rw [Climbing.climb_stop hw hr hle]
                exact ⟨hw ▸ halts_of_le hr hle rest, ops, z, h, hcov, rfl⟩
              · have hlt : y.floor < op.priority := by simpa using hle
                have hc := closesGroup_of_floor_lt hg hwait hop hlt
                have hlen : rest.length ≤ count := by simpa [hw] using hn
                have hfold := tracks_fold hg hl hwait h hw (by omega) hd hr hc
                  (hcov word rest op hw hr hc) hlt
                rw [Climbing.climb_fold hw hr hlt]
                refine tracks_andThen hfold ?_
                intro e' ops' z' after ho _ hheld' hcov'
                have hsuf := Climbing.suffix_fold op hl.forward e (c.moveTo rest)
                have hdep := Climbing.depth_fold op hl.depth e (c.moveTo rest)
                rw [ho] at hsuf hdep
                exact ih hheld' hcov' (Nat.le_trans hsuf.length_le hlen) (by omega)
                  (hdep.trans hd)

end

theorem simulates_expression (hg : g.Aligned) (count : Nat) :
    Simulates g count (Climbing.expression g count) := by
  induction count with
  | zero =>
      refine ⟨Climbing.depth_expression g 0, Climbing.forward_expression g 0, ?_⟩
      intro floor c y hb he
      have hw : c.words = [] := List.eq_nil_of_length_eq_zero (Nat.le_zero.mp hb)
      refine tracks_nested he fun hfull => ?_
      exact tracks_end hw he.expecting hfull (he.touched hw)
  | succ count ih =>
      refine ⟨Climbing.depth_expression g _, Climbing.forward_expression g _, ?_⟩
      intro floor c y hb he
      refine tracks_nested he fun hfull => ?_
      have hd : c.descend.depth = y.pending.length + 1 := by simp [Cursor.descend, he.depth]
      have hoperand : Tracks g y y c.descend (fun _ => True)
          (Climbing.operand g (Climbing.expression g count) c.descend) :=
        tracks_operand hg ih he.expecting hfull he.waits he.touched hd hb
      refine tracks_andThen hoperand ?_
      intro e ops z after ho _ hheld hcov
      have hdep := Climbing.depth_operand g ih.depth c.descend
      have hlen : after.words.length < c.descend.words.length :=
        Climbing.length_lt_of_operand ih.forward ho
      rw [ho] at hdep
      rw [← he.floor]
      exact tracks_climb hg ih he.waits hheld hcov (Nat.le_of_lt_succ (Nat.lt_of_lt_of_le hlen hb))
        (Nat.le_refl count) (hdep.trans hd)

theorem guarded_of_parse (hg : g.Aligned) (words : List String) :
    match Climbing.parse g { words } with
    | (.error cause, after) => guarded g {} words = (.error cause, after.words)
    | (.ok none, _) => words = []
    | (.ok (some e), _) =>
        e.programFree = true ∧ ∃ p, Postfix g e p ∧ guarded g {} words = (.ok p, []) := by
  cases words with
  | nil => rfl
  | cons word rest =>
      have henter : Enters g {} 0 { words := word :: rest } :=
        ⟨rfl, rfl, by simp [Waits], rfl, by simp⟩
      have ht := (simulates_expression hg (word :: rest).length).tracks 0 { words := word :: rest }
        {} (Nat.le_refl _) henter
      simp only [Climbing.parse]
      generalize Climbing.expression g _ 0 _ = o at ht
      obtain ⟨r, after⟩ := o
      cases r with
      | error cause => exact ht
      | ok e =>
          obtain ⟨hs, ops, z, hheld, _, hz⟩ := ht
          have hf := full_of_ready hheld.ready
          simp only
          cases hw : after.words with
          | nil =>
              obtain ⟨p, hp, hfin⟩ := hheld.finish rfl rfl
              rw [hw, guarded_nil hf, hfin] at hz
              exact ⟨hheld.programFree, p, hp, hz⟩
          | cons next left =>
              obtain ⟨op, hr, hc, rfl⟩ := closing_of_halts hg hs hw
              rw [hw, guarded_refused hf (hheld.read_stray rfl hr hc)] at hz
              simpa [unread, hheld.ready, hr, Climbing.leftover, Cursor.moveTo] using hz

namespace Yard

theorem guarded_fst (y : Yard) (words : List String) :
    (guarded g y words).1 = .error (.nestingTooDeep nestingLimit) ∨
      (guarded g y words).1 = (readAll g y words).1.bind finish := by
  induction words generalizing y with
  | nil =>
      cases hf : y.full with
      | true => exact Or.inl (by rw [guarded_full hf])
      | false => exact Or.inr (by rw [guarded_nil hf]; rfl)
  | cons word rest ih =>
      cases hf : y.full with
      | true => exact Or.inl (by rw [guarded_full hf])
      | false =>
          cases hr : y.read g word with
          | error cause =>
              right
              rw [guarded_refused hf hr]
              simp [readAll, hr, Except.bind]
          | ok next =>
              rw [guarded_step hf hr]
              simpa [readAll, hr] using ih next

end Yard

end InfixArithmetic
