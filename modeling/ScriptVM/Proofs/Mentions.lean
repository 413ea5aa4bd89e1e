import Mathlib.Data.List.Forall2
import Mathlib.Data.List.Induction
import ScriptVM.Proofs.Rules
import ScriptVM.Stream

/-!
# What a function takes from outside

`Expr.mentions`, `Stmt.mentions` and `FunctionDecl.mentions` list the names that a part of a tree reads or assigns, each with the
context of its place, and the functions that the part makes. They follow the tree in the order of compilation and know nothing of
the compiler. A function takes the names that are declared outside of it but not globally (`Use.isTaken`), and the instruction
that makes the function is to list them, each once and in the order in which they are first used (`Site.CapturesExactly`).
Noting each name where it is new gives such a list (`Site.capturesExactly`).
-/

namespace ScriptVM

/-! ## Uses and functions -/

/-- A name that is read or assigned, and the context of the place where it is. -/
structure Use where
  name : String
  context : Context

/-- A function, and the context that it is made in. -/
structure Site where
  context : Context
  decl : FunctionDecl

/-- The uses of names in a part of a tree, those inside of its functions too, and the functions that the part itself makes. Both are
listed in the order of compilation. -/
structure Mentions where
  uses : List Use := []
  functions : List Site := []

instance : Append Mentions := ⟨fun a b => ⟨a.uses ++ b.uses, a.functions ++ b.functions⟩⟩

namespace Mentions

variable (a b c : Mentions)

@[simp] theorem uses_append : (a ++ b).uses = a.uses ++ b.uses := rfl

@[simp] theorem functions_append : (a ++ b).functions = a.functions ++ b.functions := rfl

/-- It does not matter how mentions in sequence are grouped. -/
theorem append_assoc : a ++ b ++ c = a ++ (b ++ c) := by
  change Mentions.mk _ _ = Mentions.mk _ _
  simp only [uses_append, functions_append, List.append_assoc]

end Mentions

mutual

/-- What an expression mentions in a context. The target of an assignment comes before the value. -/
def Expr.mentions (Γ : Context) : Expr → Mentions
  | .literal .. | .missing _ => {}
  | .name _ x => { uses := [⟨x, Γ⟩] }
  | .unary _ _ operand => operand.mentions Γ
  | .binary _ _ left right | .logical _ _ left right => left.mentions Γ ++ right.mentions Γ
  | .assign _ target value => target.mentions Γ ++ value.mentions Γ
  | .call _ callee arguments => callee.mentions Γ ++ Expr.allMentions Γ arguments
  | .member _ object _ => object.mentions Γ
  | .index _ object index => object.mentions Γ ++ index.mentions Γ
  | .array _ elements => Expr.allMentions Γ elements
  | .map _ entries => Expr.pairMentions Γ entries
  | .range _ start stop none => start.mentions Γ ++ stop.mentions Γ
  | .range _ start stop (some step) => start.mentions Γ ++ stop.mentions Γ ++ step.mentions Γ
  | .function _ decl => { uses := (decl.mentions Γ).uses, functions := [⟨Γ, decl⟩] }

/-- What expressions mention. -/
def Expr.allMentions (Γ : Context) : List Expr → Mentions
  | [] => {}
  | e :: rest => e.mentions Γ ++ Expr.allMentions Γ rest

/-- What pairs of expressions mention. -/
def Expr.pairMentions (Γ : Context) : List (Expr × Expr) → Mentions
  | [] => {}
  | (key, value) :: rest => key.mentions Γ ++ value.mentions Γ ++ Expr.pairMentions Γ rest

/-- What the body of a function mentions, which has the parameters declared around it. -/
def FunctionDecl.mentions (Γ : Context) : FunctionDecl → Mentions
  | .mk _ _ params _ body => Stmt.allMentions ((Γ.enter .function).declareAll params) body

/-- What a statement mentions in a context. A name is declared behind its initializer, but a function has its name declared before
its body. -/
def Stmt.mentions (isLoopBody : Bool) (Γ : Context) : Stmt → Mentions
  | .expression _ e => e.mentions Γ
  | .declaration _ _ _ none | .ret _ none => {}
  | .declaration _ _ _ (some e) | .ret _ (some e) => e.mentions Γ
  | .block _ body => Stmt.allMentions (if isLoopBody then Γ else Γ.enter .block) body
  | .branch _ condition thenBranch none => condition.mentions Γ ++ thenBranch.mentions false (Γ.around thenBranch)
  | .branch _ condition thenBranch (some elseBranch) =>
    condition.mentions Γ ++ thenBranch.mentions false (Γ.around thenBranch) ++ elseBranch.mentions false (Γ.around elseBranch)
  | .whileLoop _ condition body => condition.mentions Γ ++ body.mentions true ((Γ.enter .loop).around body)
  | .forIn _ key value iterable body =>
    iterable.mentions Γ ++ body.mentions true (((Γ.enter .loop).declareAll (value :: key.toList)).around body)
  | .function span decl =>
    { uses := (decl.mentions (Γ.after (.function span decl))).uses, functions := [⟨Γ.after (.function span decl), decl⟩] }

/-- What statements mention, one behind the other. -/
def Stmt.allMentions (Γ : Context) : List Stmt → Mentions
  | [] => {}
  | s :: rest => s.mentions false Γ ++ Stmt.allMentions (Γ.after s) rest

end

/-- A scope has declared a name. -/
def Level.declares (l : Level) (x : String) : Bool := l.names.any (·.name == x)

/-- The innermost scope that has declared a name, with the scopes around it; none if no scope has. -/
def Context.home (Γ : Context) (x : String) : List Level := Γ.levels.dropWhile (!·.declares x)

/-- Whether a function takes a used name from outside, where so many scopes are around the function: the innermost scope that has
declared the name is not global, and is one of them. Around a place in the function the scopes are nested, so that those outside of
the function are those with fewer scopes around them. -/
def Use.isTaken (depth : Nat) (u : Use) : Bool :=
  match u.context.home u.name with
  | [] => false
  | l :: around => l.kind != .global && decide (around.length < depth)

/-- The names of the uses that a function takes from outside. -/
def taken (depth : Nat) (us : List Use) : List String := (us.filter (Use.isTaken depth)).map Use.name

namespace Site

variable (site : Site)

/-- What the body of the function mentions. -/
def mentions : Mentions := site.decl.mentions site.context

/-- How many scopes are around the function. -/
def depth : Nat := site.context.levels.length

/-- The names that a function takes from outside, each once and in the order of their first use. -/
structure CapturesExactly (names : List String) : Prop where
  nodup : names.Nodup
  mem_iff : ∀ x, x ∈ names ↔ ∃ u ∈ site.mentions.uses, u.name = x ∧ u.isTaken site.depth = true
  inOrder : names.Pairwise fun x y =>
    (taken site.depth site.mentions.uses).idxOf x < (taken site.depth site.mentions.uses).idxOf y

end Site

/-! ## Functions that code makes -/

/-- The function that an instruction makes, if it makes one. -/
def Instruction.prototype? : Instruction → Option Prototype
  | .makeFunction p => some p
  | _ => none

/-- The functions that code makes, one for each instruction that makes one. -/
def made (code : List Instruction) : List Prototype := code.filterMap Instruction.prototype?

/-- An instruction makes the function of a site: with its name and parameters and the exact captures, and its code makes the functions
in the body, one behind the other. -/
inductive Site.Makes : Site → Prototype → Prop where
  | mk {Γ : Context} {s : Span} {name : Option String} {params captures : List String} {isAsync : Bool} {body : List Stmt}
      {bytes : List UInt8} {listed : List Located} :
      CapturesExactly ⟨Γ, .mk s name params isAsync body⟩ captures → decodeStream bytes = .ok listed →
      List.Forall₂ Makes (mentions ⟨Γ, .mk s name params isAsync body⟩).functions (made (listed.map Located.instruction)) →
      Makes ⟨Γ, .mk s name params isAsync body⟩ ⟨name.getD Compile.anonymous, params, captures, isAsync, bytes⟩

/-! ## Lists of names without repetition -/

/-- The names with one more, which is listed once. -/
def note (names : List String) (x : String) : List String := if names.contains x then names else names ++ [x]

theorem captures_capture (s : Scope) (x : String) : (s.capture x).captures = note s.captures x := by
  unfold Scope.capture note
  split <;> rfl

/-- Capturing a name leaves the kind of the scope. -/
theorem kind_capture (s : Scope) (x : String) : (s.capture x).kind = s.kind := by
  unfold Scope.capture
  split <;> rfl

/-- Noting a name adds it, if anything. -/
theorem mem_note {names : List String} {x y : String} : y ∈ note names x ↔ y ∈ names ∨ y = x := by
  unfold note
  split
  · rename_i hx
    rw [List.contains_iff_mem] at hx
    constructor
    · exact .inl
    · rintro (hy | rfl)
      · exact hy
      · exact hx
  · rw [List.mem_append, List.mem_singleton]

/-- Noting names adds them, if anything. -/
theorem mem_foldl_note {xs names : List String} {y : String} : y ∈ xs.foldl note names ↔ y ∈ names ∨ y ∈ xs := by
  induction xs generalizing names with
  | nil => simp
  | cons x xs ih => rw [List.foldl_cons, ih, mem_note, List.mem_cons, or_assoc]

theorem nodup_note {names : List String} (h : names.Nodup) (x : String) : (note names x).Nodup := by
  unfold note
  split
  · exact h
  · rename_i hx
    rw [List.contains_iff_mem] at hx
    rw [List.nodup_append]
    refine ⟨h, by simp, fun a ha b hb => ?_⟩
    rw [List.mem_singleton.1 hb]
    exact fun heq => hx (heq ▸ ha)

theorem nodup_foldl_note {xs names : List String} (h : names.Nodup) : (xs.foldl note names).Nodup := by
  induction xs generalizing names with
  | nil => exact h
  | cons x xs ih => exact ih (nodup_note h x)

/-- Names are noted in the order of their first occurrence. -/
theorem pairwise_foldl_note (xs : List String) : (xs.foldl note []).Pairwise fun x y => xs.idxOf x < xs.idxOf y := by
  -- The last name changes no earlier occurrence, and is noted last if it is new.
  induction xs using List.reverseRecOn with
  | nil => exact .nil
  | append_singleton xs x ih =>
    have hmem {y : String} (hy : y ∈ xs.foldl note []) : y ∈ xs := by simpa [mem_foldl_note] using hy
    have hearlier : (xs.foldl note []).Pairwise fun y z => (xs ++ [x]).idxOf y < (xs ++ [x]).idxOf z := by
      refine ih.imp_of_mem fun {y z} hy hz hlt => ?_
      rwa [List.idxOf_append_of_mem (hmem hy), List.idxOf_append_of_mem (hmem hz)]
    rw [List.foldl_append, List.foldl_cons, List.foldl_nil, note]
    split
    · exact hearlier
    · rename_i hnew
      rw [List.contains_iff_mem, mem_foldl_note] at hnew
      refine List.pairwise_append.2 ⟨hearlier, List.pairwise_singleton _ _, fun y hy z hz => ?_⟩
      rw [List.mem_singleton.1 hz, List.idxOf_append_of_mem (hmem hy), List.idxOf_append_of_notMem (by tauto)]
      exact Nat.lt_of_lt_of_le (List.idxOf_lt_length_of_mem (hmem hy)) (Nat.le_add_right _ _)

/-- Noting the names that a function takes, use by use, gives its exact captures. -/
theorem Site.capturesExactly (site : Site) : site.CapturesExactly ((taken site.depth site.mentions.uses).foldl note []) where
  nodup := nodup_foldl_note List.nodup_nil
  mem_iff x := by
    simp only [mem_foldl_note, taken, List.not_mem_nil, false_or, List.mem_map, List.mem_filter]
    constructor
    · rintro ⟨u, ⟨hu, htaken⟩, hx⟩
      exact ⟨u, hu, hx, htaken⟩
    · rintro ⟨u, hu, hx, htaken⟩
      exact ⟨u, ⟨hu, htaken⟩, hx⟩
  inOrder := pairwise_foldl_note _

end ScriptVM
