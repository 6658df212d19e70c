import InfixArithmetic.Proofs.Nesting
import InfixArithmetic.Proofs.Squares
import Mathlib.Data.List.Chain

/-!
How much the operations before an operand nest.  Between two that are pending wait a sum, a product
and a tower of powers at most, so a limit on pending operations is one on those before an operand, a
third as large, once there are no powers.
-/

namespace InfixArithmetic

open Climbing (nestingLimit)
open Grammar (calculator)

namespace Yard

variable {g : Grammar} {y z mid : Yard} {word : String} {words us vs : List String} {bound : Nat}

/-- How many operations before an operand, groups among them, the latest word stands inside. -/
def enclosing (y : Yard) : Nat :=
  y.pending.countP (·.leads)

/-- No word stands inside more such operations than the bound. -/
def EnclosedWithin (g : Grammar) (bound : Nat) (y : Yard) (words : List String) : Prop :=
  ∀ read rest z, words = read ++ rest → Reads g y read z → z.enclosing ≤ bound

/-- An operation waits for its right operand above one that does not yield to it. -/
def Rests (q p : Operation) : Prop :=
  ∀ op, q = .trailing op → p.yieldsTo op = false

theorem Step.rests (hs : Step g y word z) (h : y.pending.IsChain Rests) :
    z.pending.IsChain Rests := by
  cases hs with
  | value => exact h
  | leading => exact List.isChain_cons.mpr ⟨nofun, h⟩
  | behind _ _ _ _ hp => exact (hp ▸ h).right_of_append
  | between _ _ _ hp _ hk =>
      refine List.isChain_cons.mpr ⟨?_, (hp ▸ h).right_of_append⟩
      rintro p hm op ⟨⟩
      exact hk p hm
  | close _ _ _ hp => exact (hp ▸ h).right_of_append.tail

theorem Reads.rests (h : Reads g {} words z) : z.pending.IsChain Rests := by
  refine h.invariant (P := fun _ y => y.pending.IsChain Rests) List.isChain_nil ?_
  intro ws u w v hu hs
  exact hs.rests hu

theorem countP_name_cons {op : Operation} (h : op.name = word) (kept : List Operation)
    (name : String) : (op :: kept).countP (·.name = name) =
      kept.countP (·.name = name) + [word].count name := by
  subst h
  by_cases hn : op.name = name <;> simp [hn]

theorem Step.countP_name_le (hs : Step g y word z) (name : String) :
    z.pending.countP (·.name = name) ≤
      y.pending.countP (·.name = name) + [word].count name := by
  cases hs with
  | value => exact Nat.le_add_right _ _
  | @leading op _ hl =>
      have hname : (Operation.leading op : Operation).name = word :=
        (Grammar.leading?_eq_some hl).2
      exact (countP_name_cons hname _ name).le
  | behind _ _ _ _ hp =>
      rw [hp, List.countP_append]
      simp only
      omega
  | @between op _ _ _ _ _ ht _ hp =>
      have hname : (Operation.trailing op).name = word := (Grammar.trailing?_eq_some ht).2
      rw [countP_name_cons hname, hp, List.countP_append]
      omega
  | close _ _ _ hp =>
      rw [hp, List.countP_append, List.countP_cons]
      simp only
      omega

theorem Reads.countP_name_le (h : Reads g {} words z) (name : String) :
    z.pending.countP (·.name = name) ≤ words.count name := by
  refine h.invariant (P := fun ws y => y.pending.countP (·.name = name) ≤ ws.count name) ?_ ?_
  · simp
  · intro ws u w v hu hs
    have hstep := hs.countP_name_le name
    rw [List.count_append]
    omega

/-- How many operations for right operands, powers on powers apart, can wait in a row up to this. -/
def rank : Operation → Nat
  | .leading _ => 0
  | .trailing op => if op.priority ≤ 2 then 1 else 2

theorem rank_between {op : Trailing} : 1 ≤ rank (.trailing op) ∧ rank (.trailing op) ≤ 2 := by
  simp only [rank]
  split <;> omega

theorem elim_rank_le (top : Option Operation) : top.elim 0 rank ≤ 2 := by
  cases top with
  | none => exact Nat.zero_le 2
  | some op =>
      cases op with
      | leading op => exact Nat.zero_le 2
      | trailing op => exact rank_between.2

theorem rank_succ_le {q : Trailing} {p : Operation} (hq : calculator.Pends (.trailing q))
    (hp : calculator.Pends p) (h : Rests (.trailing q) p) :
    rank p + 1 ≤ rank (.trailing q) + if q.name = "^" then 1 else 0 := by
  obtain ⟨hq, a, f, hqf⟩ := hq
  cases p with
  | leading p => exact Nat.le_add_right_of_le rank_between.1
  | trailing p =>
      obtain ⟨hp, a', f', hpf⟩ := hp
      have hall : ∀ q ∈ calculator.trailing, (Operation.trailing q).arity = 2 →
          ∀ p ∈ calculator.trailing, (Operation.trailing p).arity = 2 →
          (Operation.trailing p).yieldsTo q = false →
            rank (.trailing p) + 1 ≤
              rank (.trailing q) + if q.name = "^" then 1 else 0 := by decide
      exact hall q hq (Operation.arity_between hqf) p hp (Operation.arity_between hpf) (h q rfl)

theorem length_le_of_rests (hw : y.Waits calculator) (h : y.pending.IsChain Rests) :
    y.pending.length ≤
      3 * y.enclosing + y.pending.countP (·.name = "^") + y.pending.head?.elim 0 rank := by
  simp only [Waits] at hw
  simp only [enclosing]
  generalize y.pending = pending at hw h ⊢
  induction pending with
  | nil => exact Nat.zero_le _
  | cons q pending ih =>
      obtain ⟨hq, hpending⟩ := List.forall_mem_cons.mp hw
      obtain ⟨hrests, hchain⟩ := List.isChain_cons.mp h
      have hlength := ih hpending hchain
      rw [List.length_cons, List.head?_cons, Option.elim_some]
      -- One before its operand starts a new row; one between operands ranks above what it rests on.
      cases q with
      | leading q =>
          have hleads : (Operation.leading q :: pending).countP (·.leads) =
              pending.countP (·.leads) + 1 := List.countP_cons_of_pos rfl
          have hrank := elim_rank_le pending.head?
          rw [hleads, List.countP_cons]
          omega
      | trailing q =>
          have hleads : (Operation.trailing q :: pending).countP (·.leads) =
              pending.countP (·.leads) := List.countP_cons_of_neg Bool.false_ne_true
          have hname : (Operation.trailing q).name = q.name := rfl
          have hrank : pending.head?.elim 0 rank + 1 ≤
              rank (.trailing q) + if q.name = "^" then 1 else 0 := by
            cases pending with
            | nil => exact Nat.le_add_right_of_le rank_between.1
            | cons p pending => exact rank_succ_le hq (hpending p List.mem_cons_self) (hrests p rfl)
          rw [hleads, List.countP_cons]
          simp only [hname, decide_eq_true_eq]
          omega

theorem Reads.length_le (h : Reads calculator {} words z) :
    z.pending.length ≤ 3 * z.enclosing + words.count "^" + 2 := by
  have hlength := length_le_of_rests h.waits h.rests
  have hcarets := h.countP_name_le "^"
  have hrank := elim_rank_le z.pending.head?
  omega

/-- The words lead from one yard to the other, and stay within the bound. -/
structure Passes (g : Grammar) (bound : Nat) (y : Yard) (words : List String) (z : Yard) :
    Prop where
  reads : Reads g y words z
  enclosed : EnclosedWithin g bound y words

theorem passes_nil (hy : y.enclosing ≤ bound) : Passes g bound y [] y := by
  refine ⟨reads_nil.mpr rfl, ?_⟩
  intro read rest v hw hr
  obtain ⟨rfl, rfl⟩ := List.append_eq_nil_iff.mp hw.symm
  obtain rfl := reads_nil.mp hr
  exact hy

theorem passes_step (hs : Step g y word z) (hy : y.enclosing ≤ bound)
    (hz : z.enclosing ≤ bound) : Passes g bound y [word] z := by
  have hreads := reads_singleton.mpr hs
  refine ⟨hreads, ?_⟩
  intro read rest v hw hr
  cases read with
  | nil =>
      obtain rfl := reads_nil.mp hr
      exact hy
  | cons first read =>
      obtain ⟨rfl, hnil⟩ := List.cons.inj hw
      obtain ⟨rfl, rfl⟩ := List.append_eq_nil_iff.mp hnil.symm
      obtain rfl := Except.ok.inj (hreads.symm.trans hr)
      exact hz

theorem Passes.trans (h : Passes g bound y us mid) (h' : Passes g bound mid vs z) :
    Passes g bound y (us ++ vs) z := by
  refine ⟨reads_append.mpr ⟨mid, h.reads, h'.reads⟩, ?_⟩
  intro read rest v hw hr
  rcases List.append_eq_append_iff.mp hw with ⟨later, rfl, hvs⟩ | ⟨left, rfl, _⟩
  · obtain ⟨mid', hm, hr⟩ := reads_append.mp hr
    obtain rfl := Except.ok.inj (h.reads.symm.trans hm)
    exact h'.enclosed later rest v hvs hr
  · exact h.enclosed read left v rfl hr

theorem Step.enclosing_le (hs : Step g y word z) (hz : z.expecting = false) :
    z.enclosing ≤ y.enclosing := by
  cases hs with
  | value => exact Nat.le_refl _
  | leading | between => cases hz
  | behind _ _ _ _ hp =>
      simp [enclosing, hp]
  | close _ _ _ hp =>
      simp [enclosing, hp, List.countP_cons]
      omega

theorem enclosing_trailing {op : Trailing} (hp : z.pending = .trailing op :: y.pending) :
    z.enclosing = y.enclosing := by
  rw [enclosing, hp]
  exact List.countP_cons_of_neg Bool.false_ne_true

theorem passes_between {op : Trailing} {a : Associativity} {f : BinaryOperator}
    (hy : y.expecting = true) (ht : g.trailing? op.name = some op) (hf : op.form = .between a f)
    (hk : ∀ p, y.pending.head? = some p → p.yieldsTo op = false) (hone : g.knows "1" = false)
    (hb : y.enclosing ≤ bound) :
    ∃ z, Passes g bound y ["1", op.name] z ∧ z.expecting = true ∧
      z.pending = .trailing op :: y.pending := by
  have hvalue := Step.value hy hone
  have hop := @Step.between _ _ g { y with expecting := false, emitted := .value "1" :: y.emitted }
    op.name op a f [] y.pending rfl ht hf rfl nofun hk
  have hnext := passes_step hop hb (by rwa [enclosing_trailing (y := y) rfl])
  exact ⟨_, (passes_step hvalue hb hb).trans hnext, rfl, rfl⟩

theorem passes_closes {count : Nat} (hy : y.expecting = false) (hc : g.Closes ")")
    (hg : y.groups = count) (hb : y.enclosing ≤ bound) :
    ∃ z, Passes g bound y (List.replicate count ")") z ∧ z.expecting = false ∧ z.groups = 0 := by
  induction count generalizing y with
  | zero => exact ⟨y, passes_nil hb, hy, hg⟩
  | succ count ih =>
      obtain ⟨mid, hs, hmid, hgroups⟩ := step_of_closes hy (by omega) hc
      have hle := (hs.enclosing_le hmid).trans hb
      obtain ⟨z, hp, hz⟩ := ih hmid (by omega) hle
      exact ⟨z, (passes_step hs hb hle).trans hp, hz⟩

end Yard

def plus : Trailing :=
  ⟨"+", 2, .between .left .add⟩

def times : Trailing :=
  ⟨"*", 3, .between .left .multiply⟩

theorem trailing?_plus : calculator.trailing? plus.name = some plus := rfl

theorem trailing?_times : calculator.trailing? times.name = some times := rfl

theorem knows_one : calculator.knows "1" = false := by decide

namespace Yard

variable {y : Yard} {bound : Nat}

/-- An operand is expected right behind the start of a group. -/
structure Fresh (y : Yard) : Prop where
  expecting : y.expecting = true
  opened : ∀ p, y.pending.head? = some p → p.opensGroup = true

theorem passes_sum (h : y.Fresh) (hb : y.enclosing ≤ bound) :
    ∃ z, Passes calculator bound y ["1", "+", "1", "*"] z ∧ z.expecting = true ∧
      z.pending = .trailing times :: .trailing plus :: y.pending := by
  have hopened : ∀ p, y.pending.head? = some p → p.yieldsTo plus = false :=
    fun p hp => Operation.yieldsTo_of_opensGroup (h.opened p hp) plus
  obtain ⟨mid, hmid, he, hp⟩ :=
    passes_between h.expecting trailing?_plus rfl hopened knows_one hb
  have hle := (enclosing_trailing hp).le.trans hb
  have hplus : ∀ p, mid.pending.head? = some p → p.yieldsTo times = false := by
    rw [hp]
    rintro p ⟨⟩
    decide
  obtain ⟨z, hz, hez, hpz⟩ := passes_between he trailing?_times rfl hplus knows_one hle
  exact ⟨z, hmid.trans hz, hez, hp ▸ hpz⟩

theorem passes_powers (count : Nat) (hy : y.expecting = true)
    (hk : ∀ p, y.pending.head? = some p → p.yieldsTo caret = false) (hb : y.enclosing ≤ bound) :
    ∃ z, Passes calculator bound y (List.replicate count ["1", "^"]).flatten z ∧
      z.expecting = true ∧ z.pending = List.replicate count (.trailing caret) ++ y.pending := by
  induction count generalizing y with
  | zero => exact ⟨y, passes_nil hb, hy, rfl⟩
  | succ count ih =>
      obtain ⟨mid, hmid, he, hp⟩ := passes_between hy trailing?_caret rfl hk knows_one hb
      have hle := (enclosing_trailing hp).le.trans hb
      have hcaret : ∀ p, mid.pending.head? = some p → p.yieldsTo caret = false := by
        rw [hp]
        rintro p ⟨⟩
        decide
      obtain ⟨z, hz, hez, hpz⟩ := ih he hcaret hle
      refine ⟨z, hmid.trans hz, hez, ?_⟩
      rw [hpz, hp, List.replicate_succ', List.append_assoc]
      rfl

theorem passes_group (h : y.Fresh) (hb : y.enclosing + 1 ≤ bound) :
    ∃ z, Passes calculator bound y ["1", "+", "1", "*", "("] z ∧ z.Fresh ∧
      z.enclosing = y.enclosing + 1 ∧ z.groups = y.groups + 1 ∧
      z.pending.length = y.pending.length + 3 := by
  obtain ⟨mid, hmid, he, hp⟩ := passes_sum h (Nat.le_of_succ_le hb)
  have hopen : calculator.leading? "(" = some ⟨openGroup, 100, .group⟩ := rfl
  have hs := Step.leading he hopen
  have hmidle : mid.enclosing = y.enclosing := by
    simp [enclosing, hp, Operation.leads]
  refine ⟨_, hmid.trans (passes_step hs (by omega) ?_), ⟨rfl, ?_⟩, ?_, ?_, ?_⟩
  · simpa [enclosing, hp, Operation.leads] using hb
  · rintro p ⟨⟩
    rfl
  · simp [enclosing, hp, Operation.leads]
  · simp [groups, hp, Operation.opensGroup, Leading.opensGroup]
  · simp [hp]

theorem passes_groups (count : Nat) (h : y.Fresh) (hb : y.enclosing + count ≤ bound) :
    ∃ z, Passes calculator bound y (List.replicate count ["1", "+", "1", "*", "("]).flatten z ∧
      z.Fresh ∧ z.enclosing = y.enclosing + count ∧ z.groups = y.groups + count ∧
      z.pending.length = y.pending.length + 3 * count := by
  induction count generalizing y with
  | zero => exact ⟨y, passes_nil hb, h, rfl, rfl, rfl⟩
  | succ count ih =>
      have hone : y.enclosing + 1 ≤ bound := by omega
      obtain ⟨mid, hmid, hfresh, henc, hgroups, hlen⟩ := passes_group h hone
      obtain ⟨z, hz, hfz, hez, hgz, hlz⟩ := ih hfresh (by omega)
      exact ⟨z, hmid.trans hz, hfz, by omega, by omega, by omega⟩

end Yard

namespace Text

def letterWords (letters : List Char) : List String :=
  letters.map fun c => String.ofList [c]

def spaced (letters : List Char) : String :=
  String.ofList (letters.flatMap fun c => [c, ' '])

theorem spellSquares_cons {c : Char} (hc : c ≠ '*') (cs : List Char) :
    spellSquares (c :: cs) = c :: spellSquares cs := by
  cases cs with
  | nil => rfl
  | cons d rest => simp [spellSquares, hc]

theorem spellSquares_spaced (letters : List Char) :
    spellSquares (letters.flatMap fun c => [c, ' ']) = letters.flatMap fun c => [c, ' '] := by
  induction letters with
  | nil => rfl
  | cons c letters ih =>
      have hspace : ' ' ≠ '*' := by decide
      rw [List.flatMap_cons, List.cons_append, List.cons_append, List.nil_append, spellSquares,
        if_neg fun h => hspace h.2, spellSquares_cons hspace, ih]

theorem runs_spaced {letters : List Char} (h : ∀ c ∈ letters, isBlank c = false) :
    runs ((letters.flatMap fun c => [c, ' ']).flatMap setApart) = letters.map ([·]) := by
  have hblank : isBlank ' ' = true := by decide
  have hspace : setApart ' ' = [' '] := by decide
  induction letters with
  | nil => rfl
  | cons c letters ih =>
      obtain ⟨hc, hletters⟩ := List.forall_mem_cons.mp h
      have hrest := ih hletters
      rw [List.flatMap_cons, List.cons_append, List.cons_append, List.nil_append,
        List.flatMap_cons, List.flatMap_cons, hspace, List.map_cons, ← hrest]
      cases hs : isSymbol c <;> simp [setApart, hs, runs, hc, hblank, continues]

theorem words_normalize_spaced {letters : List Char} (h : ∀ c ∈ letters, isBlank c = false) :
    words (normalize (spaced letters)) = letterWords letters := by
  rw [words_normalize, spaced, String.toList_ofList, spellSquares_spaced, runs_spaced h,
    List.map_map]
  rfl

end Text

/-- A tower of powers below groups, each behind a sum and a product. -/
def nestedLetters (groups carets : Nat) : List Char :=
  (List.replicate groups ['1', '+', '1', '*', '(']).flatten ++ ['1', '+', '1', '*'] ++
    (List.replicate carets ['1', '^']).flatten ++ '1' :: List.replicate groups ')'

def nestedWords (groups carets : Nat) : List String :=
  (List.replicate groups ["1", "+", "1", "*", "("]).flatten ++ ["1", "+", "1", "*"] ++
    (List.replicate carets ["1", "^"]).flatten ++ "1" :: List.replicate groups ")"

def nestedText (groups carets : Nat) : String :=
  Text.spaced (nestedLetters groups carets)

theorem letterWords_nested (groups carets : Nat) :
    Text.letterWords (nestedLetters groups carets) = nestedWords groups carets := by
  simp [Text.letterWords, nestedLetters, nestedWords, List.map_flatten]

theorem words_normalize_nested (groups carets : Nat) :
    Text.words (Text.normalize (nestedText groups carets)) = nestedWords groups carets := by
  have hchars : Text.isBlank '1' = false ∧ Text.isBlank '+' = false ∧ Text.isBlank '*' = false ∧
      Text.isBlank '^' = false ∧ Text.isBlank '(' = false ∧ Text.isBlank ')' = false := by decide
  have hletters : (nestedLetters groups carets).all (!Text.isBlank ·) = true := by
    simp [nestedLetters, hchars]
  rw [nestedText, Text.words_normalize_spaced (by simpa using hletters), letterWords_nested]

theorem count_nested (groups carets : Nat) : (nestedWords groups carets).count "^" = carets := by
  have hcloses : (List.replicate groups ")").count "^" = 0 :=
    List.count_eq_zero.mpr fun h => absurd (List.eq_of_mem_replicate h) (by decide)
  simp [nestedWords, List.count_append, List.count_flatten, hcloses]

namespace Yard

theorem passes_nested (groups carets : Nat) :
    (∃ z, Passes calculator groups {} (nestedWords groups carets) z ∧
      z.expecting = false ∧ z.groups = 0) ∧
    Reaches calculator (3 * groups + carets + 2) {} (nestedWords groups carets) := by
  have hstart : enclosing {} + groups ≤ groups := by simp [enclosing]
  obtain ⟨u, hu, hfresh, henc, hgroups, hlen⟩ := passes_groups groups ⟨rfl, by simp⟩ hstart
  have hule : u.enclosing ≤ groups := henc.le.trans hstart
  obtain ⟨v, hv, hev, hpv⟩ := passes_sum hfresh hule
  have hvle : v.enclosing ≤ groups := by
    simpa [enclosing, hpv, Operation.leads] using hule
  have hproduct : ∀ p, v.pending.head? = some p → p.yieldsTo caret = false := by
    rw [hpv]
    rintro p ⟨⟩
    decide
  obtain ⟨w, hw, hew, hpw⟩ := passes_powers carets hev hproduct hvle
  have hwle : w.enclosing ≤ groups := by
    simpa [enclosing, hpw, hpv, Operation.leads, List.countP_replicate] using hule
  have hwgroups : w.groups = groups := by
    have hugroups : u.groups = groups := by simpa [Yard.groups] using hgroups
    simpa [Yard.groups, hpw, hpv, Operation.opensGroup, List.countP_replicate] using hugroups
  have hfront := (hu.trans hv).trans hw
  have hvalue := Step.value hew knows_one
  have hcloses : calculator.Closes ")" := ⟨_, rfl, rfl⟩
  obtain ⟨z, hz, hez, hgz⟩ :=
    passes_closes (y := { w with expecting := false, emitted := .value "1" :: w.emitted })
      rfl hcloses hwgroups hwle
  refine ⟨⟨z, hfront.trans ((passes_step hvalue hwle hwle).trans hz), hez, hgz⟩, ?_⟩
  refine ⟨_, _, w, rfl, hfront.reads, ?_⟩
  have hempty : ({} : Yard).pending.length = 0 := rfl
  simp only [hpw, hpv, List.length_append, List.length_replicate, List.length_cons]
  omega

end Yard

open Yard (EnclosedWithin)

theorem parse_tooDeep_iff {text : String} {limit : Nat} :
    parse calculator .normal text = .error (.nestingTooDeep limit) ↔
      limit = nestingLimit ∧
        Yard.Reaches calculator nestingLimit {} (Text.words (Text.normalize text)) := by
  rw [parse, Mode.parse]
  exact climbing_tooDeep_iff aligned_calculator

theorem nested_text_is_refused (groups carets : Nat)
    (h : nestingLimit ≤ 3 * groups + carets + 2) :
    (∃ e, parse calculator .rpn (nestedText groups carets) = .ok (some e)) ∧
      EnclosedWithin calculator groups {} (nestedWords groups carets) ∧
      parse calculator .normal (nestedText groups carets) =
        .error (.nestingTooDeep nestingLimit) := by
  obtain ⟨⟨z, hz, he, hg⟩, read, rest, y, hw, hr, hlen⟩ := Yard.passes_nested groups carets
  refine ⟨?_, hz.enclosed, ?_⟩
  · obtain ⟨p, hp⟩ := Yard.parse_of_ready hz.reads he hg
    refine ⟨.program p, ?_⟩
    simp [parse, Mode.parse, words_normalize_nested, hp, Except.map]
  · rw [parse_tooDeep_iff, words_normalize_nested]
    exact ⟨rfl, read, rest, y, hw, hr, h.trans hlen⟩

theorem enclosure_keeps_from_nesting_iff (bound carets : Nat) :
    (∀ text e, parse calculator .rpn text = .ok (some e) →
      EnclosedWithin calculator bound {} (Text.words (Text.normalize text)) →
      (Text.words (Text.normalize text)).count "^" ≤ carets →
        ∀ limit, parse calculator .normal text ≠ .error (.nestingTooDeep limit)) ↔
      3 * bound + carets + 2 < nestingLimit := by
  constructor
  · intro h
    by_contra hdeep
    obtain ⟨⟨e, he⟩, henclosed, hrefused⟩ :=
      nested_text_is_refused bound carets (by omega)
    rw [← words_normalize_nested] at henclosed
    have hcount : (Text.words (Text.normalize (nestedText bound carets))).count "^" ≤ carets := by
      rw [words_normalize_nested, count_nested]
    exact h _ e he henclosed hcount nestingLimit hrefused
  · intro h text e _ henclosed hcount limit hdeep
    obtain ⟨_, read, rest, z, hw, hr, hlen⟩ := parse_tooDeep_iff.mp hdeep
    have hlength := hr.length_le
    have hbound := henclosed read rest z hw hr
    have hread : read.count "^" ≤ carets := by
      refine Nat.le_trans ?_ hcount
      rw [hw, List.count_append]
      exact Nat.le_add_right _ _
    omega

theorem towers_are_refused :
    (∃ e, parse calculator .rpn (nestedText 0 254) = .ok (some e)) ∧
      EnclosedWithin calculator 0 {} (Text.words (Text.normalize (nestedText 0 254))) ∧
      parse calculator .normal (nestedText 0 254) = .error (.nestingTooDeep nestingLimit) ∧
      ¬ ∀ text e, parse calculator .rpn text = .ok (some e) →
        EnclosedWithin calculator (nestingLimit - 1) {} (Text.words (Text.normalize text)) →
          ∀ limit, parse calculator .normal text ≠ .error (.nestingTooDeep limit) := by
  obtain ⟨haccepted, henclosed, hrefused⟩ :=
    nested_text_is_refused 0 254 (by decide)
  rw [← words_normalize_nested] at henclosed
  refine ⟨haccepted, henclosed, hrefused, ?_⟩
  intro h
  obtain ⟨e, he⟩ := haccepted
  refine h _ e he ?_ nestingLimit hrefused
  intro read rest z hw hr
  exact (henclosed read rest z hw hr).trans (Nat.zero_le _)

end InfixArithmetic
