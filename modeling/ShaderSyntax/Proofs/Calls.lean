import ShaderSyntax.Proofs.Touring

/-!
# Resolvers under any calls

A resolver keeps the files that are open from one call to the next, and callers may open and close
files themselves between walks. Whatever is called and whatever comes of it, no file is ever open
twice and never too many are open, during walks as well. Resolving and walking leave the open files
as they were, and so does a file that cannot be opened.
-/
namespace ShaderSyntax

/-- What can be called on a resolver. -/
inductive Call where
  | addSearchPath (directory : Text)
  | resolve (path includer : Text)
  | push (path : Text)
  | pop
  | walk (path : Text)
  deriving DecidableEq, Repr

/-- What a call gives when it succeeds. -/
inductive Reply where
  | done
  | found (path : Text)
  | walked (dependencies : List Dependency)

/-- The reply to a call or why there is none, the resolver after it, and the stacks of open files that
there were from the call on. -/
structure Answer where
  reply : Except IncludeError Reply
  after : Resolver
  passed : List (List Text)

namespace Resolver

variable {r : Resolver} {fs : FileSystem}

/-- Answers a call. A walk opens and closes files on the way, and leaves those that it has not
closed. -/
def answer (r : Resolver) (fs : FileSystem) : Call → Answer
  | .addSearchPath directory =>
    let after := r.addSearchPath directory
    ⟨.ok .done, after, [after.stack]⟩
  | .resolve path includer => ⟨(r.resolve fs path includer).map .found, r, [r.stack]⟩
  | .push path =>
    match r.push fs path with
    | .error e => ⟨.error e, r, [r.stack]⟩
    | .ok after => ⟨.ok .done, after, [after.stack]⟩
  | .pop => ⟨.ok .done, r.pop, [r.pop.stack]⟩
  | .walk path =>
    let (result, t) := r.tour fs path
    ⟨result.map .walked, { r with stack := t.stack }, t.passed⟩

/-- The resolver after a sequence of calls. -/
def afterCalls (r : Resolver) (fs : FileSystem) (calls : List Call) : Resolver :=
  calls.foldl (fun r c => (r.answer fs c).after) r

/-- What a call does to the resolver, by its answer. -/
def Effect (r : Resolver) (fs : FileSystem) (a : Answer) : Call → Prop
  | .addSearchPath directory =>
    a.after = { r with searchPaths := r.searchPaths ++ [directory] }
  | .resolve path includer =>
    a.reply = (r.resolve fs path includer).map .found ∧ a.after = r
  | .push path =>
    match a.reply with
    | .error _ => a.after = r
    | .ok _ => a.after = { r with stack := r.stack ++ [fs.absolute path] }
  | .pop => a.after = { r with stack := r.stack.dropLast }
  | .walk path => a.reply = (r.walk fs path).map .walked ∧ a.after = r

/-- A call keeps the files that are open in order, meanwhile and afterwards. -/
structure Keeps (r : Resolver) (fs : FileSystem) (c : Call) (a : Answer) : Prop where
  meanwhile : ∀ s ∈ a.passed, Orderly s
  after : Orderly a.after.stack
  effect : r.Effect fs a c

theorem orderly_dropLast {stack : List Text} (h : Orderly stack) : Orderly stack.dropLast := by
  have hle := h.length_le
  exact ⟨h.nodup.sublist stack.dropLast_sublist, by simp only [List.length_dropLast]; omega⟩

/-- A call that leaves one stack and goes through no other. -/
theorem keeps_of_one {c : Call} {reply : Except IncludeError Reply} {after : Resolver}
    (h : Orderly after.stack) (heffect : r.Effect fs ⟨reply, after, [after.stack]⟩ c) :
    r.Keeps fs c ⟨reply, after, [after.stack]⟩ := by
  refine ⟨?_, h, heffect⟩
  intro s hs
  rwa [List.mem_singleton.mp hs]

theorem push_keeps (h : Orderly r.stack) (path : Text) :
    r.Keeps fs (.push path) (r.answer fs (.push path)) := by
  simp only [answer, push]
  cases ho : open? fs r.stack path with
  | error e => exact keeps_of_one h rfl
  | ok stack =>
    obtain ⟨-, -, hstack⟩ := open?_eq_ok_iff.mp ho
    have heffect : r.Effect fs ⟨.ok .done, { r with stack }, [stack]⟩ (.push path) := by
      rw [hstack]
      rfl
    have hinner : Orderly { r with stack }.stack := h.open? ho
    exact keeps_of_one hinner heffect

theorem walk_keeps (h : Orderly r.stack) (path : Text) :
    r.Keeps fs (.walk path) (r.answer fs (.walk path)) := by
  obtain ⟨hresult, hstack, hpassed⟩ := tour_agrees fs h path
  have hafter : (r.answer fs (.walk path)).after = r := by
    change { r with stack := (r.tour fs path).2.stack } = r
    rw [hstack]
  refine ⟨hpassed, ?_, congrArg (Except.map Reply.walked) hresult, hafter⟩
  rw [hafter]
  exact h

theorem answer_keeps (h : Orderly r.stack) (c : Call) : r.Keeps fs c (r.answer fs c) := by
  cases c with
  | addSearchPath directory => exact keeps_of_one h rfl
  | resolve path includer => exact keeps_of_one h ⟨rfl, rfl⟩
  | push path => exact push_keeps h path
  | pop => exact keeps_of_one (orderly_dropLast h) rfl
  | walk path => exact walk_keeps h path

theorem orderly_afterCalls (fs : FileSystem) (h : Orderly r.stack) (calls : List Call) :
    Orderly (r.afterCalls fs calls).stack := by
  induction calls generalizing r with
  | nil => exact h
  | cons c calls ih => exact ih (answer_keeps h c).after

end Resolver

/-- Whatever was called on a resolver before and came of it, the next call keeps its open files in
order. -/
theorem calls_keep_stack (fs : FileSystem) (projectRoot : Text) (searchPaths : List Text)
    (levels : Nat) (calls : List Call) (c : Call) :
    let before := (Resolver.start projectRoot searchPaths levels).afterCalls fs calls
    Orderly before.stack ∧ before.Keeps fs c (before.answer fs c) := by
  have hstart : Orderly (Resolver.start projectRoot searchPaths levels).stack := orderly_nil
  have h := Resolver.orderly_afterCalls fs hstart calls
  exact ⟨h, Resolver.answer_keeps h c⟩

end ShaderSyntax
