import InfixArithmetic.Proofs.YardSteps

/-!
What the yard accepts: operands joined by the operations between them, each with its operations in
front and behind, around a value or a group.  Which of these a word can be is all that counts, never
how tightly it binds.
-/

namespace InfixArithmetic

variable {W J : Type}

namespace Grammar

variable {g : Grammar W J} {word : String} {words : List String}

def Leads (g : Grammar W J) (word : String) : Prop :=
  ∃ op, g.leading? word = some op ∧ op.opensGroup = false

def Opens (g : Grammar W J) (word : String) : Prop :=
  ∃ op, g.leading? word = some op ∧ op.opensGroup = true

def Follows (g : Grammar W J) (word : String) : Prop :=
  ∃ op, g.trailing? word = some op ∧ (∃ wrap, op.form = .behind wrap) ∧ op.closesGroup = false

def Joins (g : Grammar W J) (word : String) : Prop :=
  ∃ op, g.trailing? word = some op ∧ ∃ a join, op.form = .between a join

def Closes (g : Grammar W J) (word : String) : Prop :=
  ∃ op, g.trailing? word = some op ∧ op.closesGroup = true

inductive Category where
  | expression
  | operand
  | atom

inductive Derives (g : Grammar W J) : Category → List String → Prop
  | value {word : String} (h : g.knows word = false) : Derives g .atom [word]
  | group {opening closing : String} {words : List String} (ho : g.Opens opening)
      (h : Derives g .expression words) (hc : g.Closes closing) :
      Derives g .atom (opening :: words ++ [closing])
  | operand {before words after : List String} (hb : ∀ w ∈ before, g.Leads w)
      (h : Derives g .atom words) (ha : ∀ w ∈ after, g.Follows w) :
      Derives g .operand (before ++ words ++ after)
  | single {words : List String} (h : Derives g .operand words) : Derives g .expression words
  | joined {left right : List String} {word : String} (hl : Derives g .expression left)
      (hj : g.Joins word) (hr : Derives g .operand right) :
      Derives g .expression (left ++ word :: right)

namespace Derives

theorem of_atom (h : Derives g .atom words) : Derives g .operand words := by
  have hn (role : String → Prop) : ∀ w ∈ ([] : List String), role w := by simp
  simpa using operand (hn g.Leads) h (hn g.Follows)

theorem leads (hw : g.Leads word) (h : Derives g .operand words) :
    Derives g .operand (word :: words) := by
  cases h with
  | operand hb h ha =>
      exact operand (List.forall_mem_cons.mpr ⟨hw, hb⟩) h ha

theorem follows_operand (h : Derives g .operand words) (hw : g.Follows word) :
    Derives g .operand (words ++ [word]) := by
  cases h with
  | @operand before atom after hb h ha =>
      rw [List.append_assoc]
      refine operand hb h ?_
      intro w hm
      rcases List.mem_append.mp hm with hm | hm
      · exact ha w hm
      · obtain rfl := List.mem_singleton.mp hm
        exact hw

theorem follows (h : Derives g .expression words) (hw : g.Follows word) :
    Derives g .expression (words ++ [word]) := by
  cases h with
  | single h => exact single (h.follows_operand hw)
  | joined hl hj hr => simpa using joined hl hj (hr.follows_operand hw)

end Derives

/-- Words behind which an operand completes an expression. -/
def Awaits (g : Grammar W J) (words : List String) : Prop :=
  ∀ operand, Derives g .operand operand → Derives g .expression (words ++ operand)

namespace Awaits

theorem nil : g.Awaits [] :=
  fun _ h => .single h

theorem leads (h : g.Awaits words) (hw : g.Leads word) : g.Awaits (words ++ [word]) := by
  intro operand ho
  simpa using h _ (ho.leads hw)

theorem joins (h : Derives g .expression words) (hw : g.Joins word) :
    g.Awaits (words ++ [word]) := by
  intro operand ho
  simpa using Derives.joined h hw ho

end Awaits

def Within (g : Grammar W J) : Bool → List String → Prop
  | true, words => g.Awaits words
  | false, words => Derives g .expression words

/-- Words that have opened so many groups and not closed them. -/
def Unfinished (g : Grammar W J) : Nat → Bool → List String → Prop
  | 0, expecting, words => g.Within expecting words
  | groups + 1, expecting, words =>
      ∃ outer opening inner, words = outer ++ opening :: inner ∧
        Unfinished g groups true outer ∧ g.Opens opening ∧ g.Within expecting inner

namespace Unfinished

variable {groups : Nat} {expecting expecting' : Bool} {added : List String}

theorem extend (h : g.Unfinished groups expecting words)
    (ha : ∀ inner, g.Within expecting inner → g.Within expecting' (inner ++ added)) :
    g.Unfinished groups expecting' (words ++ added) := by
  cases groups with
  | zero => exact ha words h
  | succ groups =>
      obtain ⟨outer, opening, inner, rfl, houter, ho, hinner⟩ := h
      exact ⟨outer, opening, inner ++ added, by simp, houter, ho, ha inner hinner⟩

theorem operand (h : g.Unfinished groups true words) (ho : Derives g .operand added) :
    g.Unfinished groups false (words ++ added) :=
  h.extend fun _ (hinner : g.Awaits _) => hinner added ho

theorem leads (h : g.Unfinished groups true words) (hw : g.Leads word) :
    g.Unfinished groups true (words ++ [word]) :=
  h.extend fun _ (hinner : g.Awaits _) => hinner.leads hw

theorem opens (h : g.Unfinished groups true words) (hw : g.Opens word) :
    g.Unfinished (groups + 1) true (words ++ [word]) :=
  ⟨words, word, [], rfl, h, hw, Awaits.nil⟩

theorem follows (h : g.Unfinished groups false words) (hw : g.Follows word) :
    g.Unfinished groups false (words ++ [word]) :=
  h.extend fun _ (hinner : Derives g .expression _) => hinner.follows hw

theorem joins (h : g.Unfinished groups false words) (hw : g.Joins word) :
    g.Unfinished groups true (words ++ [word]) :=
  h.extend fun _ hinner => Awaits.joins hinner hw

theorem closes (h : g.Unfinished (groups + 1) false words) (hw : g.Closes word) :
    g.Unfinished groups false (words ++ [word]) := by
  obtain ⟨outer, opening, inner, rfl, houter, ho, hinner⟩ := h
  simpa using houter.operand (Derives.of_atom (.group ho hinner hw))

end Unfinished

/-- The same operations, bound as tightly as the priorities of their names say. -/
def prioritize (before behind : String → Priority) (g : Grammar W J) : Grammar W J where
  leading := g.leading.map fun op => { op with priority := before op.name }
  trailing := g.trailing.map fun op => { op with priority := behind op.name }

/-- Every word can be the same in one grammar as in the other. -/
structure Resembles (g h : Grammar W J) : Prop where
  knows : ∀ word, g.knows word = h.knows word
  leads : ∀ word, g.Leads word ↔ h.Leads word
  opens : ∀ word, g.Opens word ↔ h.Opens word
  follows : ∀ word, g.Follows word ↔ h.Follows word
  joins : ∀ word, g.Joins word ↔ h.Joins word
  closes : ∀ word, g.Closes word ↔ h.Closes word

theorem Resembles.symm {h : Grammar W J} (hr : g.Resembles h) : h.Resembles g where
  knows word := (hr.knows word).symm
  leads word := (hr.leads word).symm
  opens word := (hr.opens word).symm
  follows word := (hr.follows word).symm
  joins word := (hr.joins word).symm
  closes word := (hr.closes word).symm

theorem Derives.of_resembles {h : Grammar W J} {c : Category} (hd : Derives g c words)
    (hr : g.Resembles h) : Derives h c words := by
  induction hd with
  | value hk => exact .value (hr.knows _ ▸ hk)
  | group ho _ hc ih => exact .group ((hr.opens _).mp ho) ih ((hr.closes _).mp hc)
  | operand hb _ ha ih =>
      exact .operand (fun w hw => (hr.leads w).mp (hb w hw)) ih
        (fun w hw => (hr.follows w).mp (ha w hw))
  | single _ ih => exact .single ih
  | joined _ hj _ ihl ihr => exact .joined ihl ((hr.joins _).mp hj) ihr

theorem exists_map_iff {α : Type} {f : α → α} {P : α → Prop} (hf : ∀ a, P (f a) ↔ P a)
    (found : Option α) : (∃ a, found.map f = some a ∧ P a) ↔ ∃ a, found = some a ∧ P a := by
  cases found <;> simp [hf]

section

variable (before behind : String → Priority) (g : Grammar W J) (word : String)

theorem leading?_prioritize :
    (g.prioritize before behind).leading? word =
      (g.leading? word).map fun op => { op with priority := before op.name } := by
  simp only [leading?, prioritize, List.find?_map]
  rfl

theorem trailing?_prioritize :
    (g.prioritize before behind).trailing? word =
      (g.trailing? word).map fun op => { op with priority := behind op.name } := by
  simp only [trailing?, prioritize, List.find?_map]
  rfl

theorem resembles_prioritize : (g.prioritize before behind).Resembles g where
  knows word := by simp [knows, leading?_prioritize, trailing?_prioritize]
  leads word := by
    rw [Leads, leading?_prioritize]
    refine exists_map_iff ?_ _
    exact fun _ => Iff.rfl
  opens word := by
    rw [Opens, leading?_prioritize]
    refine exists_map_iff ?_ _
    exact fun _ => Iff.rfl
  follows word := by
    rw [Follows, trailing?_prioritize]
    refine exists_map_iff ?_ _
    exact fun _ => Iff.rfl
  joins word := by
    rw [Joins, trailing?_prioritize]
    refine exists_map_iff ?_ _
    exact fun _ => Iff.rfl
  closes word := by
    rw [Closes, trailing?_prioritize]
    refine exists_map_iff ?_ _
    exact fun _ => Iff.rfl

end

end Grammar

namespace Yard

variable {g : Grammar W J} {y z : Yard W J} {word : String} {words : List String}

def groups (y : Yard W J) : Nat :=
  y.pending.countP (·.opensGroup)

theorem groups_of_append {ops kept : List (Operation W J)} (hp : y.pending = ops ++ kept)
    (ho : ∀ p ∈ ops, p.opensGroup = false) : y.groups = kept.countP (·.opensGroup) := by
  have hn : ops.countP (·.opensGroup) = 0 := by
    rw [List.countP_eq_zero]
    intro p hm
    simp [ho p hm]
  rw [groups, hp, List.countP_append, hn, Nat.zero_add]

theorem groups_of_yields {op : Trailing W J} {ops kept : List (Operation W J)}
    (hp : y.pending = ops ++ kept)
    (ho : ∀ p ∈ ops, p.yieldsTo op = true) : y.groups = kept.countP (·.opensGroup) :=
  groups_of_append hp fun p hm => opensGroup_of_yieldsTo (ho p hm)

theorem groups_of_group {group : Operation W J} {inner outer : List (Operation W J)}
    (hp : y.pending = inner ++ group :: outer) (hi : ∀ p ∈ inner, p.opensGroup = false)
    (hg : group.opensGroup = true) : y.groups = outer.countP (·.opensGroup) + 1 := by
  rw [groups_of_append hp hi, List.countP_cons_of_pos hg]

theorem groups_leading {op : Leading W} {y' : Yard W J}
    (hp : y'.pending = .leading op :: y.pending) :
    y'.groups = if op.opensGroup then y.groups + 1 else y.groups := by
  rw [groups, hp, List.countP_cons]
  cases ho : op.opensGroup <;> simp [groups, Operation.opensGroup, ho]

theorem unfinished_step (h : g.Unfinished y.groups y.expecting words) (hs : Step g y word z) :
    g.Unfinished z.groups z.expecting (words ++ [word]) := by
  cases hs with
  | value hy hk =>
      rw [hy] at h
      exact h.operand (.of_atom (.value hk))
  | @leading op hy hl =>
      rw [hy] at h
      rw [groups_leading (y := y) rfl]
      cases ho : op.opensGroup with
      | true => exact h.opens ⟨op, hl, ho⟩
      | false => exact h.leads ⟨op, hl, ho⟩
  | behind hy hl hf hc hp ho hk =>
      rw [hy, groups_of_yields hp ho] at h
      rw [hy]
      exact h.follows ⟨_, hl, ⟨_, hf⟩, hc⟩
  | between hy hl hf hp ho hk =>
      rw [hy, groups_of_yields hp ho] at h
      exact h.joins ⟨_, hl, _, _, hf⟩
  | close hy hl hc hp hi hg =>
      rw [hy, groups_of_group hp hi hg] at h
      rw [hy]
      exact h.closes ⟨_, hl, hc⟩

theorem unfinished_of_reads (h : Reads g {} words z) :
    g.Unfinished z.groups z.expecting words := by
  refine h.invariant (P := fun ws y => g.Unfinished y.groups y.expecting ws) ?_ ?_
  · exact Grammar.Awaits.nil
  · intro ws u w v hu hs
    exact unfinished_step hu hs

theorem step_of_leads (hy : y.expecting = true) (hw : g.Leads word) :
    ∃ z, Step g y word z ∧ z.expecting = true ∧ z.groups = y.groups := by
  obtain ⟨op, hl, ho⟩ := hw
  refine ⟨_, .leading hy hl, rfl, ?_⟩
  rw [groups_leading (y := y) rfl]
  simp [ho]

theorem step_of_opens (hy : y.expecting = true) (hw : g.Opens word) :
    ∃ z, Step g y word z ∧ z.expecting = true ∧ z.groups = y.groups + 1 := by
  obtain ⟨op, hl, ho⟩ := hw
  refine ⟨_, .leading hy hl, rfl, ?_⟩
  rw [groups_leading (y := y) rfl]
  simp [ho]

theorem step_of_follows (hy : y.expecting = false) (hw : g.Follows word) :
    ∃ z, Step g y word z ∧ z.expecting = false ∧ z.groups = y.groups := by
  obtain ⟨op, hl, ⟨wrap, hf⟩, hc⟩ := hw
  obtain ⟨ops, kept, hp, ho, hk, _⟩ := exists_flushWhile (·.yieldsTo op) y
  exact ⟨_, .behind hy hl hf hc hp ho hk, hy, (groups_of_yields hp ho).symm⟩

theorem step_of_joins (hy : y.expecting = false) (hw : g.Joins word) :
    ∃ z, Step g y word z ∧ z.expecting = true ∧ z.groups = y.groups := by
  obtain ⟨op, hl, a, f, hf⟩ := hw
  obtain ⟨ops, kept, hp, ho, hk, _⟩ := exists_flushWhile (·.yieldsTo op) y
  exact ⟨_, .between hy hl hf hp ho hk, rfl, (groups_of_yields hp ho).symm⟩

theorem step_of_closes (hy : y.expecting = false) (hg : 0 < y.groups) (hw : g.Closes word) :
    ∃ z, Step g y word z ∧ z.expecting = false ∧ z.groups + 1 = y.groups := by
  obtain ⟨op, hl, hc⟩ := hw
  obtain ⟨inner, kept, hp, hi, hk, _⟩ := exists_flushWhile (!·.opensGroup) y
  have hi : ∀ p ∈ inner, p.opensGroup = false := by simpa using hi
  cases kept with
  | nil =>
      rw [groups_of_append hp hi] at hg
      simp at hg
  | cons group outer =>
      have hgroup : group.opensGroup = true := by simpa using hk
      exact ⟨_, .close hy hl hc hp hi hgroup, hy, (groups_of_group hp hi hgroup).symm⟩

theorem reads_leads (hw : ∀ w ∈ words, g.Leads w) (hy : y.expecting = true) :
    ∃ z, Reads g y words z ∧ z.expecting = true ∧ z.groups = y.groups := by
  induction words generalizing y with
  | nil => exact ⟨y, reads_nil.mpr rfl, hy, rfl⟩
  | cons w ws ih =>
      obtain ⟨mid, hs, hmid, hg⟩ := step_of_leads hy (hw w (by simp))
      obtain ⟨z, hr, hz, hgz⟩ := ih (fun v hv => hw v (by simp [hv])) hmid
      exact ⟨z, reads_cons.mpr ⟨mid, hs, hr⟩, hz, hgz.trans hg⟩

theorem reads_follows (hw : ∀ w ∈ words, g.Follows w) (hy : y.expecting = false) :
    ∃ z, Reads g y words z ∧ z.expecting = false ∧ z.groups = y.groups := by
  induction words generalizing y with
  | nil => exact ⟨y, reads_nil.mpr rfl, hy, rfl⟩
  | cons w ws ih =>
      obtain ⟨mid, hs, hmid, hg⟩ := step_of_follows hy (hw w (by simp))
      obtain ⟨z, hr, hz, hgz⟩ := ih (fun v hv => hw v (by simp [hv])) hmid
      exact ⟨z, reads_cons.mpr ⟨mid, hs, hr⟩, hz, hgz.trans hg⟩

theorem reads_of_derives {c : Grammar.Category} (h : Grammar.Derives g c words)
    (hy : y.expecting = true) :
    ∃ z, Reads g y words z ∧ z.expecting = false ∧ z.groups = y.groups := by
  -- The yard is any that expects an operand: the words of a part find in it what those before left.
  induction h generalizing y with
  | value hk => exact ⟨_, reads_singleton.mpr (.value hy hk), rfl, rfl⟩
  | group ho _ hc ih =>
      obtain ⟨opened, hs, ho, hgo⟩ := step_of_opens hy ho
      obtain ⟨inner, hr, hi, hgi⟩ := ih ho
      obtain ⟨z, hz, he, hgz⟩ := step_of_closes hi (by omega) hc
      refine ⟨z, ?_, he, by omega⟩
      exact reads_append.mpr ⟨inner, reads_cons.mpr ⟨opened, hs, hr⟩, reads_singleton.mpr hz⟩
  | operand hb _ ha ih =>
      obtain ⟨u, hu, heu, hgu⟩ := reads_leads hb hy
      obtain ⟨v, hv, hev, hgv⟩ := ih heu
      obtain ⟨z, hz, hez, hgz⟩ := reads_follows ha hev
      refine ⟨z, ?_, hez, hgz.trans (hgv.trans hgu)⟩
      exact reads_append.mpr ⟨v, reads_append.mpr ⟨u, hu, hv⟩, hz⟩
  | single _ ih => exact ih hy
  | joined _ hj _ ihl ihr =>
      obtain ⟨u, hu, heu, hgu⟩ := ihl hy
      obtain ⟨v, hv, hev, hgv⟩ := step_of_joins heu hj
      obtain ⟨z, hz, hez, hgz⟩ := ihr hev
      refine ⟨z, ?_, hez, hgz.trans (hgv.trans hgu)⟩
      exact reads_append.mpr ⟨u, hu, reads_cons.mpr ⟨v, hv, hz⟩⟩

theorem groups_eq_zero : y.groups = 0 ↔ ∀ p ∈ y.pending, p.opensGroup = false := by
  simp [groups, List.countP_eq_zero]

theorem parse_of_ready (hr : Reads g {} words z) (he : z.expecting = false) (hg : z.groups = 0) :
    ∃ p, (parse g words).1 = .ok (some p) :=
  ⟨_, parse_eq_some_iff_ready.mpr ⟨z, hr, he, groups_eq_zero.mp hg, rfl⟩⟩

theorem accepts_iff_derives :
    (∃ p, (parse g words).1 = .ok (some p)) ↔ Grammar.Derives g .expression words := by
  constructor
  · rintro ⟨p, h⟩
    obtain ⟨z, hr, he, hg, rfl⟩ := parse_eq_some_iff_ready.mp h
    have hun := unfinished_of_reads hr
    rwa [groups_eq_zero.mpr hg, he] at hun
  · intro h
    obtain ⟨z, hr, he, hg⟩ := reads_of_derives h (y := {}) rfl
    exact parse_of_ready hr he hg

end Yard

theorem yard_accepts_exactly_its_grammar (g : Grammar W J) (words : List String) :
    ((∃ p, (Yard.parse g words).1 = .ok (some p)) ↔ Grammar.Derives g .expression words) ∧
    ∀ before behind, (∃ p, (Yard.parse (g.prioritize before behind) words).1 = .ok (some p)) ↔
      ∃ p, (Yard.parse g words).1 = .ok (some p) := by
  refine ⟨Yard.accepts_iff_derives, ?_⟩
  intro before behind
  have hr := g.resembles_prioritize before behind
  rw [Yard.accepts_iff_derives, Yard.accepts_iff_derives]
  exact ⟨fun h => h.of_resembles hr, fun h => h.of_resembles hr.symm⟩

end InfixArithmetic
