import RoundTrip.Failure

/-!
# Chains of failures

Labels and run sites are put around a failure one after the other. What a caller asks of the result
is answered by walks along its links, from the outside in: a cause is looked for in all of them,
left-over input and a run site are taken from the first link that has one, and the text is that of
every link in turn.

Main statement: `chain_described`. However labels and sites are nested, the causes and the left-over
input are those of the innermost failure, the text is its text behind those of all layers, and the
exit status is decided by the kind of the outermost site alone.
-/

set_option autoImplicit false

namespace RoundTrip.Failure

/-! ## Walks -/

/-- A failure and those inside it, from the outside in. -/
def links : Failure → List Failure
  | within label inner => within label inner :: inner.links
  | atSite site inner => atSite site inner :: inner.links
  | e => [e]

/-- A link bears a cause of its own, whatever is inside it. -/
def Bears : Failure → Cause → Prop
  | known cause, c => cause = c
  | detailed cause _, c => cause = c
  | trailing _ _, c => c = .trailingBytes
  | _, _ => False

/-- The left-over input that a link reports itself. -/
def ownTrailing? : Failure → Option (Int × Int)
  | trailing offset length => some (offset, length)
  | _ => none

/-- The run site that a link is. -/
def ownSite? : Failure → Option Run.Site
  | atSite site _ => some site
  | emptySite site => some site
  | _ => none

/-- The causes of a failure are those that one of its links bears. -/
theorem mem_causes_iff_exists_link {c : Cause} {e : Failure} :
    c ∈ e.causes ↔ ∃ link ∈ e.links, link.Bears c := by
  rw [mem_causes_iff]
  induction e with
  | within label inner ih => simp [cause?, links, ih, Bears]
  | atSite site inner ih => simp [cause?, links, ih, Bears]
  | trailing offset length => simp [cause?, links, Bears, eq_comm]
  | _ => simp [cause?, links, Bears]

/-- The left-over input is that of the first link that reports some. -/
theorem trailing?_eq_findSome? (e : Failure) : e.trailing? = e.links.findSome? ownTrailing? := by
  induction e with
  | within label inner ih => exact ih
  | atSite site inner ih => exact ih
  | _ => rfl

/-- The site of a failure is the first one among its links. -/
theorem site?_eq_findSome? (e : Failure) : e.site? = e.links.findSome? ownSite? := by
  induction e with
  | within label inner ih => exact ih
  | _ => rfl

/-! ## Layers -/

/-- What can be put around a failure. -/
inductive Layer where
  | label (text : String)
  | site (s : Run.Site)
  deriving DecidableEq, Repr

namespace Layer

/-- A failure with a layer around it. -/
def around : Layer → Failure → Failure
  | label text, e => .within text e
  | site s, e => .atSite s e

/-- The text that a layer puts before that of the failure inside it. -/
def text : Layer → String
  | label text => text ++ ": "
  | site s => "Failed to " ++ s.op ++ ": "

theorem message_around (l : Layer) (e : Failure) : (l.around e).message = l.text ++ e.message := by
  cases l with
  | label text => rfl
  | site s => rfl

theorem links_around (l : Layer) (e : Failure) : (l.around e).links = l.around e :: e.links := by
  cases l with
  | label text => rfl
  | site s => rfl

/-- A layer has no cause of its own. -/
theorem not_bears_around (l : Layer) (e : Failure) (c : Cause) : ¬ (l.around e).Bears c := by
  cases l with
  | label text => exact id
  | site s => exact id

theorem ownTrailing?_around (l : Layer) (e : Failure) : (l.around e).ownTrailing? = none := by
  cases l with
  | label text => rfl
  | site s => rfl

end Layer

/-- What a failure can start from. -/
inductive Leaf where
  | plain (text : String)
  | known (cause : Cause)
  | trailing (offset length : Int)
  deriving DecidableEq, Repr

namespace Leaf

/-- The failure with nothing around it. -/
def failure : Leaf → Failure
  | plain text => .plain text
  | known cause => .known cause
  | trailing offset length => .trailing offset length

def causes : Leaf → List Cause
  | plain _ => []
  | known cause => [cause]
  | trailing _ _ => [.trailingBytes]

def trailing? : Leaf → Option (Int × Int)
  | trailing offset length => some (offset, length)
  | _ => none

def text : Leaf → String
  | plain text => text
  | known cause => cause.text
  | trailing offset length => Failure.trailingText offset length

theorem message_failure (leaf : Leaf) : leaf.failure.message = leaf.text := by
  cases leaf with
  | _ => rfl

theorem links_failure (leaf : Leaf) : leaf.failure.links = [leaf.failure] := by
  cases leaf with
  | _ => rfl

theorem bears_failure_iff {leaf : Leaf} {c : Cause} : leaf.failure.Bears c ↔ c ∈ leaf.causes := by
  cases leaf with
  | known cause => simp [failure, Failure.Bears, causes, eq_comm]
  | _ => simp [failure, Failure.Bears, causes]

theorem causes_failure (leaf : Leaf) : leaf.failure.causes = leaf.causes := by
  cases leaf with
  | known cause =>
      cases cause with
      | _ => rfl
  | _ => rfl

theorem ownTrailing?_failure (leaf : Leaf) : leaf.failure.ownTrailing? = leaf.trailing? := by
  cases leaf with
  | _ => rfl

end Leaf

/-! ## Chains -/

/-- A failure with layers around it, the first of which is the outermost one. -/
def chain (layers : List Layer) (leaf : Leaf) : Failure := layers.foldr Layer.around leaf.failure

theorem chain_cons (l : Layer) (layers : List Layer) (leaf : Leaf) :
    chain (l :: layers) leaf = l.around (chain layers leaf) := rfl

/-- The text of a chain is the text of its leaf behind those of its layers. -/
theorem message_chain (layers : List Layer) (leaf : Leaf) :
    (chain layers leaf).message = String.join (layers.map Layer.text) ++ leaf.text := by
  induction layers with
  | nil => simp [chain, Leaf.message_failure]
  | cons l layers ih =>
      rw [chain_cons, Layer.message_around, ih, List.map_cons, String.join_cons,
        String.append_assoc]

/-- The only link of a chain that bears a cause is its leaf. -/
theorem exists_link_chain_iff {layers : List Layer} {leaf : Leaf} {c : Cause} :
    (∃ link ∈ (chain layers leaf).links, link.Bears c) ↔ c ∈ leaf.causes := by
  induction layers with
  | nil => simp [chain, Leaf.links_failure, Leaf.bears_failure_iff]
  | cons l layers ih => simp [chain_cons, Layer.links_around, Layer.not_bears_around, ih]

/-- The only link of a chain that reports left-over input is its leaf. -/
theorem trailing?_chain (layers : List Layer) (leaf : Leaf) :
    (chain layers leaf).trailing? = leaf.trailing? := by
  rw [trailing?_eq_findSome?]
  induction layers with
  | nil =>
      rw [chain, List.foldr_nil, Leaf.links_failure, List.findSome?_singleton,
        Leaf.ownTrailing?_failure]
  | cons l layers ih =>
      rw [chain_cons, Layer.links_around, List.findSome?_cons, Layer.ownTrailing?_around, ih]

/-- Causes are listed in one order, so those of a chain are told by the links that bear them. -/
theorem causes_chain (layers : List Layer) (leaf : Leaf) :
    (chain layers leaf).causes = leaf.causes := by
  rw [← Leaf.causes_failure, Failure.causes, Failure.causes]
  congr 1
  funext c
  rw [decide_eq_decide, ← mem_causes_iff, ← mem_causes_iff,
    mem_causes_iff_exists_link, exists_link_chain_iff, Leaf.causes_failure]

/-- The first site along a chain is the one that has nothing but labels around it. -/
theorem findSome?_ownSite?_chain_iff {layers : List Layer} {leaf : Leaf} {s : Run.Site} :
    (chain layers leaf).links.findSome? ownSite? = some s
      ↔ ∃ labels inner, layers = List.map Layer.label labels ++ .site s :: inner := by
  induction layers with
  | nil =>
      constructor
      · intro h
        cases leaf with
        | _ => cases h
      · rintro ⟨labels, inner, h⟩
        cases labels with
        | _ => cases h
  | cons l layers ih =>
      rw [chain_cons, Layer.links_around, List.findSome?_cons]
      cases l with
      | label text =>
          -- the walk goes on behind a label, so the label is one more around the site
          refine ih.trans ?_
          constructor
          · rintro ⟨labels, inner, rfl⟩
            exact ⟨text :: labels, inner, rfl⟩
          · rintro ⟨labels, inner, h⟩
            cases labels with
            | nil => cases h
            | cons text' labels =>
                cases h
                exact ⟨labels, inner, rfl⟩
      | site s' =>
          -- the walk ends here, whatever is inside
          constructor
          · intro h
            cases h
            exact ⟨[], layers, rfl⟩
          · rintro ⟨labels, inner, h⟩
            cases labels with
            | nil =>
                cases h
                rfl
            | cons text labels => cases h

/-! ## Exit status -/

/-- A failure has status 1 when the first site along it is a refusal of the input. -/
theorem exitStatus_eq_one_iff {e : Failure} :
    exitStatus (some e) = 1
      ↔ ∃ s, e.links.findSome? ownSite? = some s ∧ s.kind = .decode := by
  rw [exitStatus, ← site?_eq_findSome?]
  cases e.site? with
  | none => simp
  | some s => simp [Run.Site.recoverable]

/-- No failure has a status besides 1 and 2. -/
theorem exitStatus_eq_two_iff {e : Failure} :
    exitStatus (some e) = 2 ↔ ¬ exitStatus (some e) = 1 := by
  rw [exitStatus]
  cases e.site? with
  | none => simp
  | some s =>
      by_cases hs : s.recoverable = true
      · simp [hs]
      · simp [hs]

/-! ## Main statement -/

/-- **A chain of failures is described by its leaf and its outermost site.** For every nesting of
labels and sites around a text, a known cause or left-over input:

- the status is 1 exactly when the outermost site is a refusal of the input, and 2 otherwise;
- a search for a cause along the chain finds those of the leaf, which are the causes of the chain;
- the left-over input that comes first along the chain is that of the leaf;
- the text is that of the leaf behind those of all layers, from the outside in. -/
theorem chain_described (layers : List Layer) (leaf : Leaf) :
    (exitStatus (some (chain layers leaf)) = 1
      ↔ ∃ labels s inner, layers = List.map Layer.label labels ++ .site s :: inner
          ∧ s.kind = .decode)
    ∧ (exitStatus (some (chain layers leaf)) = 2
      ↔ ¬ ∃ labels s inner, layers = List.map Layer.label labels ++ .site s :: inner
          ∧ s.kind = .decode)
    ∧ (∀ c, (∃ link ∈ (chain layers leaf).links, link.Bears c) ↔ c ∈ leaf.causes)
    ∧ (chain layers leaf).causes = leaf.causes
    ∧ (chain layers leaf).links.findSome? ownTrailing? = leaf.trailing?
    ∧ (chain layers leaf).trailing? = leaf.trailing?
    ∧ (chain layers leaf).message = String.join (layers.map Layer.text) ++ leaf.text := by
  have hone : exitStatus (some (chain layers leaf)) = 1
      ↔ ∃ labels s inner, layers = List.map Layer.label labels ++ .site s :: inner
          ∧ s.kind = .decode := by
    rw [exitStatus_eq_one_iff]
    constructor
    · rintro ⟨s, hsite, hkind⟩
      obtain ⟨labels, inner, hlayers⟩ := findSome?_ownSite?_chain_iff.1 hsite
      exact ⟨labels, s, inner, hlayers, hkind⟩
    · rintro ⟨labels, s, inner, hlayers, hkind⟩
      exact ⟨s, findSome?_ownSite?_chain_iff.2 ⟨labels, inner, hlayers⟩, hkind⟩
  refine ⟨hone, ?_, fun c => exists_link_chain_iff, causes_chain layers leaf, ?_,
    trailing?_chain layers leaf, message_chain layers leaf⟩
  · rw [exitStatus_eq_two_iff, hone]
  · rw [← trailing?_eq_findSome?, trailing?_chain]

/-- A refusal inside a failure of storage does not count, and labels around both do not either. -/
example :
    let refusal : Layer := .site ⟨.decode, .inputRead, "decode input file", "in"⟩
    let storage : Layer := .site ⟨.io, .flushed, "close output file", "out"⟩
    exitStatus (some (chain [.label "outer", storage, .label "inner", refusal] (.trailing 5 6))) = 2
      ∧ exitStatus (some (chain [.label "outer", refusal, storage] (.trailing 5 6))) = 1 := by
  decide

end RoundTrip.Failure
