import InfixArithmetic.Operation

/-!
Grammars: one table of the operations written before their operand and one of all others, so that a
name can mean one thing before an operand and another behind it.
-/

namespace InfixArithmetic

/-- Puts an entry into a table in place of one that has its name. -/
def enter {α : Type} (name : α → String) (entry : α) (table : List α) : List α :=
  entry :: table.filter (name · ≠ name entry)

theorem find?_enter {α : Type} (name : α → String) (entry : α) (table : List α) (word : String) :
    (enter name entry table).find? (name · = word) =
      if name entry = word then some entry else table.find? (name · = word) := by
  rw [enter, List.find?_cons]
  by_cases h : name entry = word
  · simp [h]
  · simp only [h, decide_false, if_false]
    rw [List.find?_filter]
    congr 1
    funext a
    by_cases ha : name a = word
    · simp [ha, Ne.symm h]
    · simp [ha]

theorem nodup_enter {α : Type} (name : α → String) (entry : α) {table : List α}
    (h : (table.map name).Nodup) : ((enter name entry table).map name).Nodup := by
  rw [enter, List.map_cons, List.nodup_cons]
  refine ⟨?_, h.sublist (List.filter_sublist.map name)⟩
  intro hm
  obtain ⟨a, ha, hn⟩ := List.mem_map.mp hm
  simp [hn] at ha

structure Grammar (W : Type := Wrap) (J : Type := BinaryOperator) where
  leading : List (Leading W)
  trailing : List (Trailing W J)
  deriving DecidableEq

namespace Grammar

variable {W J : Type}

def empty : Grammar W J := ⟨[], []⟩

def add (g : Grammar W J) : Operation W J → Grammar W J
  | .leading op => { g with leading := enter Leading.name op g.leading }
  | .trailing op => { g with trailing := enter Trailing.name op g.trailing }

/-- Of two operations with one name in one table the later stays. -/
def ofList (operations : List (Operation W J)) : Grammar W J :=
  operations.foldl add empty

def leading? (g : Grammar W J) (name : String) : Option (Leading W) :=
  g.leading.find? (·.name = name)

def trailing? (g : Grammar W J) (name : String) : Option (Trailing W J) :=
  g.trailing.find? (·.name = name)

theorem leading?_add (g : Grammar W J) (op : Leading W) (word : String) :
    (g.add (.leading op)).leading? word = if op.name = word then some op else g.leading? word :=
  find?_enter Leading.name op g.leading word

theorem trailing?_add (g : Grammar W J) (op : Trailing W J) (word : String) :
    (g.add (.trailing op)).trailing? word =
      if op.name = word then some op else g.trailing? word :=
  find?_enter Trailing.name op g.trailing word

def getLeading (g : Grammar W J) (name : String) : Except SyntaxError (Leading W) :=
  match g.leading? name with
  | some op => .ok op
  | none => .error (.unknownLeadingOperation name)

def getTrailing (g : Grammar W J) (name : String) : Except SyntaxError (Trailing W J) :=
  match g.trailing? name with
  | some op => .ok op
  | none => .error (.unknownOperation name)

def knows (g : Grammar W J) (word : String) : Bool :=
  (g.trailing? word).isSome || (g.leading? word).isSome

/-- What a word means where an operand starts: nothing for a value. -/
def readOperand (g : Grammar W J) (word : String) : Except SyntaxError (Option (Leading W)) :=
  if g.knows word then (g.getLeading word).map some else .ok none

/-- What a word means behind an operand. -/
def readOperation (g : Grammar W J) (word : String) : Except SyntaxError (Trailing W J) :=
  if g.knows word then g.getTrailing word else .error (.invalidExpression word)

section

variable {g : Grammar W J} {word : String}

theorem leading?_eq_some {op : Leading W} (h : g.leading? word = some op) :
    op ∈ g.leading ∧ op.name = word :=
  ⟨List.mem_of_find?_eq_some h, by simpa using List.find?_some h⟩

theorem trailing?_eq_some {op : Trailing W J} (h : g.trailing? word = some op) :
    op ∈ g.trailing ∧ op.name = word :=
  ⟨List.mem_of_find?_eq_some h, by simpa using List.find?_some h⟩

theorem readOperand_eq_some {op : Leading W} (h : g.readOperand word = .ok (some op)) :
    op ∈ g.leading ∧ op.name = word := by
  simp only [readOperand, getLeading] at h
  split at h
  · cases hl : g.leading? word with
    | none => simp [hl, Except.map] at h
    | some found =>
        obtain rfl : found = op := by simpa [hl, Except.map] using h
        exact leading?_eq_some hl
  · cases h

theorem readOperation_eq_ok {op : Trailing W J} (h : g.readOperation word = .ok op) :
    op ∈ g.trailing ∧ op.name = word := by
  simp only [readOperation, getTrailing] at h
  split at h
  · cases ht : g.trailing? word with
    | none => simp [ht] at h
    | some found =>
        obtain rfl : found = op := by simpa [ht] using h
        exact trailing?_eq_some ht
  · cases h

theorem readOperand_of_leading? {op : Leading W} (h : g.leading? word = some op) :
    g.readOperand word = .ok (some op) := by
  simp [readOperand, knows, getLeading, h, Except.map]

theorem readOperation_of_trailing? {op : Trailing W J} (h : g.trailing? word = some op) :
    g.readOperation word = .ok op := by
  simp [readOperation, knows, getTrailing, h]

theorem readOperand_eq_none : g.readOperand word = .ok none ↔ g.knows word = false := by
  simp only [readOperand]
  split
  · rename_i hk
    cases g.getLeading word <;> simp [hk, Except.map]
  · rename_i hk
    simp [hk]

theorem leading?_of_readOperand {op : Leading W} (h : g.readOperand word = .ok (some op)) :
    g.leading? word = some op := by
  simp only [readOperand, getLeading] at h
  split at h
  · cases hl : g.leading? word with
    | none => simp [hl, Except.map] at h
    | some found => simpa [hl, Except.map] using h
  · cases h

theorem trailing?_of_readOperation {op : Trailing W J} (h : g.readOperation word = .ok op) :
    g.trailing? word = some op := by
  simp only [readOperation, getTrailing] at h
  split at h
  · cases ht : g.trailing? word with
    | none => simp [ht] at h
    | some found => simpa [ht] using h
  · cases h

theorem knows_of_leading? {op : Leading W} (h : g.leading? word = some op) :
    g.knows word = true := by
  simp [knows, h]

theorem knows_of_trailing? {op : Trailing W J} (h : g.trailing? word = some op) :
    g.knows word = true := by
  simp [knows, h]

theorem leading?_eq_none (h : g.knows word = false) : g.leading? word = none := by
  simpa [knows] using (Bool.or_eq_false_iff.mp h).2

end

def leadingDescriptions (g : Grammar) : List String :=
  (g.leading.map (Operation.leading · |>.description)).mergeSort (fun s t => decide (s ≤ t))

def trailingDescriptions (g : Grammar) : List String :=
  (g.trailing.map (Operation.trailing · |>.description)).mergeSort (fun s t => decide (s ≤ t))

def calculator : Grammar :=
  ofList [
    .trailing ⟨"+", 2, .between .left .add⟩,
    .trailing ⟨"-", 2, .between .left .subtract⟩,
    .trailing ⟨"*", 3, .between .left .multiply⟩,
    .trailing ⟨"/", 3, .between .left .divide⟩,
    .trailing ⟨"^", 4, .between .right .exponentiate⟩,
    .trailing ⟨"**", 4, .behind (.operator .square)⟩,
    .trailing ⟨"!", 4, .behind (.operator .factorial)⟩,
    .leading ⟨"+", 2, .operator .identity⟩,
    .leading ⟨"-", 2, .operator .negate⟩,
    .leading ⟨"sin", 5, .operator .sine⟩,
    .leading ⟨"cos", 5, .operator .cosine⟩,
    .leading ⟨"tan", 5, .operator .tangent⟩,
    .leading ⟨"fib", 5, .operator .fibonacci⟩,
    .leading ⟨openGroup, 100, .group⟩,
    .trailing ⟨closeGroup, -1, .behind .group⟩]

end Grammar

end InfixArithmetic
