import StackCompiler.Proofs.Term.Parents

/-!
# Chains and their elements

A chain is read along the left links from its head. The nodes on this way are its spine. If all of
them are links, keywords of the right name that have an element, the elements are the nodes on their
right sides, and the last one of the spine has the first element. If not, the first node of the
spine that is no link is at fault.

Building a chain and reading it are inverse. Whatever is built afterwards, nodes are only added, so
the chain stays where it is.
-/
namespace StackCompiler

namespace Term

variable {tag : Keyword}

/-- The positions of the elements of a chain. -/
def elementIds (tag : Keyword) (t : Term) : Except CompileError (List (Option NodeId)) :=
  (t.elements tag).map (List.map id?)

theorem elementIds_absent : elementIds tag .absent = .ok [] :=
  rfl

theorem elementIds_dangling (id : NodeId) :
    elementIds tag (.dangling id) = .error (.unexpectedNode id (quotedKeyword tag)) :=
  rfl

theorem elementIds_of_ne {id : NodeId} {kind : Kind} {left right : Term} (h : kind ≠ .keyword tag) :
    elementIds tag (.node id kind left right) =
      .error (.unexpectedNode id (quotedKeyword tag)) := by
  simp [elementIds, elements, h, throw, throwThe, MonadExceptOf.throw, bind, Except.bind,
    Except.map]

theorem elementIds_bare (id : NodeId) (left : Term) :
    elementIds tag (.node id (.keyword tag) left .absent) =
      .error (.missingChild id "list element") := by
  simp [elementIds, elements, require, isAbsent, bind, Except.bind, Except.map]

/-- A link adds its element behind those of the chain that it is put on. -/
theorem elementIds_link {id item : NodeId} {left right : Term} (h : right.id? = some item) :
    elementIds tag (.node id (.keyword tag) left right) =
      (left.elementIds tag).map (· ++ [some item]) := by
  have hpresent : right.isAbsent = false := by
    rw [isAbsent_eq_isNone, h]
    rfl
  cases hleft : left.elements tag <;>
    simp [elementIds, elements, require, hpresent, hleft, h, bind, Except.bind, pure, Except.pure,
      Except.map]

end Term

namespace Arena

theorem id?_unfold (a : Arena) (depth : Nat) (link : Option NodeId) :
    (a.unfold depth link).id? = link := by
  cases link with
  | none =>
    rw [unfold_none]
    rfl
  | some id =>
    cases depth with
    | zero => rfl
    | succ depth => cases h : a.nodes[id]? <;> simp [unfold, h, Term.id?]

theorem unfold_of_none {a : Arena} {id : NodeId} (h : a.node? id = none) (depth : Nat) :
    a.unfold depth (some id) = .dangling id := by
  have hnode : a.nodes[id]? = none := h
  cases depth with
  | zero => rfl
  | succ depth => simp only [unfold, hnode]

end Arena

namespace Build

open Arena

variable {α β : Type}

/-- Whatever the arena, nodes are only added to it. -/
def Grows (m : Build α) : Prop :=
  ∀ a : Arena, a.nodes.toList <+: (m.run a).2.nodes.toList

theorem grows_pure (x : α) : Grows (pure x) :=
  fun _ => List.prefix_rfl

theorem Grows.bind {m : Build α} {f : α → Build β} (hm : Grows m) (hf : ∀ x, Grows (f x)) :
    Grows (m >>= f) :=
  fun a => (hm a).trans (hf (m.run a).1 (m.run a).2)

theorem Grows.discard {m : Build α} (hm : Grows m) : Grows (discard m) :=
  fun a => hm a

theorem grows_push (kind : Kind) (left right : Option NodeId) : Grows (push kind left right) := by
  intro a
  show a.nodes.toList <+: (a.nodes.push _).toList
  rw [Array.toList_push]
  exact List.prefix_append _ _

theorem grows_setRoot (id : NodeId) : Grows (setRoot id) :=
  fun _ => List.prefix_rfl

theorem grows_chainFrom (tag : Keyword) (head : Option NodeId) (items : List NodeId) :
    Grows (chainFrom tag head items) := by
  induction items generalizing head with
  | nil => exact grows_pure head
  | cons item rest ih => exact (grows_push _ _ _).bind fun link => ih (some link)

theorem grows_mapM_ident (names : List String) : Grows (names.mapM ident) := by
  induction names with
  | nil => exact grows_pure []
  | cons name rest ih =>
    rw [List.mapM_cons]
    exact (grows_push _ _ _).bind fun id => ih.bind fun ids => grows_pure (id :: ids)

theorem grows_call (name : String) (args : List NodeId) : Grows (call name args) :=
  (grows_push _ _ _).bind fun _ => (grows_chainFrom _ _ _).bind fun _ => grows_push _ _ _

theorem grows_define (name : String) (parameters : List String) (body : List NodeId) :
    Grows (define name parameters body) :=
  (grows_push _ _ _).bind fun _ => (grows_mapM_ident parameters).bind fun _ =>
    (grows_chainFrom _ _ _).bind fun _ => (grows_push _ _ _).bind fun _ =>
      (grows_chainFrom _ _ _).bind fun _ => grows_push _ _ _

theorem grows_program (statements : List NodeId) : Grows (program statements) := by
  refine (grows_chainFrom _ _ _).bind fun head => ?_
  cases head with
  | none => exact grows_pure none
  | some head => exact (grows_setRoot head).bind fun _ => grows_pure (some head)

/-- The calls by which an arena is built. -/
inductive Step where
  | push (kind : Kind) (left right : Option NodeId)
  | number (value : Number)
  | ident (name : String)
  | indexed (name : String) (index : NodeId)
  | keyword (tag : Keyword) (left right : Option NodeId)
  | binary (tag : Keyword) (left right : NodeId)
  | unary (tag : Keyword) (operand : NodeId)
  | chain (tag : Keyword) (items : List NodeId)
  | stmts (items : List NodeId)
  | params (items : List NodeId)
  | assign (target value : NodeId)
  | call (name : String) (args : List NodeId)
  | define (name : String) (parameters : List String) (body : List NodeId)
  | program (statements : List NodeId)
  | setRoot (id : NodeId)
  deriving DecidableEq, Repr

namespace Step

/-- Makes the call and drops what it gives back. -/
def perform : Step → Build Unit
  | .push kind left right => discard (Build.push kind left right)
  | .number value => discard (Build.number value)
  | .ident name => discard (Build.ident name)
  | .indexed name index => discard (Build.indexed name index)
  | .keyword tag left right => discard (Build.keyword tag left right)
  | .binary tag left right => discard (Build.binary tag left right)
  | .unary tag operand => discard (Build.unary tag operand)
  | .chain tag items => discard (Build.chain tag items)
  | .stmts items => discard (Build.stmts items)
  | .params items => discard (Build.params items)
  | .assign target value => discard (Build.assign target value)
  | .call name args => discard (Build.call name args)
  | .define name parameters body => discard (Build.define name parameters body)
  | .program statements => discard (Build.program statements)
  | .setRoot id => Build.setRoot id

theorem grows_perform (step : Step) : Grows step.perform := by
  cases step with
  | push | number | ident | indexed | keyword | binary | unary | assign =>
    exact (grows_push _ _ _).discard
  | chain | stmts | params => exact (grows_chainFrom _ _ _).discard
  | call name args => exact (grows_call name args).discard
  | define name parameters body => exact (grows_define name parameters body).discard
  | program statements => exact (grows_program statements).discard
  | setRoot id => exact grows_setRoot id

theorem grows_forM_perform (steps : List Step) : Grows (steps.forM perform) := by
  induction steps with
  | nil => exact grows_pure _
  | cons step rest ih => exact step.grows_perform.bind fun _ => ih

end Step

/-- In every arena that starts with the nodes, a link is a chain of the items, if it is unfolded
`depth` deep. -/
def Lists (nodes : Array Node) (tag : Keyword) (link : Option NodeId) (depth : Nat)
    (items : List NodeId) : Prop :=
  ∀ a : Arena, nodes.toList <+: a.nodes.toList → ∀ d, depth ≤ d →
    (a.unfold d link).elementIds tag = .ok (items.map some)

theorem Lists.nil (nodes : Array Node) (tag : Keyword) : Lists nodes tag none 0 [] := by
  intro a _ d _
  rw [unfold_none]
  rfl

/-- A link pushed on a chain puts its item behind the others. -/
theorem Lists.push {nodes : Array Node} {tag : Keyword} {head : Option NodeId} {depth : Nat}
    {items : List NodeId} (h : Lists nodes tag head depth items) (item : NodeId) :
    Lists (nodes.push ⟨.keyword tag, head, some item⟩) tag (some nodes.size) (depth + 1)
      (items ++ [item]) := by
  intro a ha d hd
  obtain ⟨d, rfl⟩ : ∃ e, d = e + 1 := ⟨d - 1, by omega⟩
  have hbefore := h a (prefix_of_push ha) d (by omega)
  simp only [unfold, node_of_prefix ha]
  rw [Term.elementIds_link (a.id?_unfold d (some item)), hbefore]
  simp [Except.map]

/-- A chain is no deeper than there are nodes. -/
theorem lists_chainFrom (tag : Keyword) (items : List NodeId) {head : Option NodeId} {a : Arena}
    {depth : Nat}
    {before : List NodeId} (h : Lists a.nodes tag head depth before)
    (hdepth : depth ≤ a.nodes.size) :
    ∃ link b depth', (chainFrom tag head items).run a = (link, b) ∧ depth' ≤ b.nodes.size ∧
      Lists b.nodes tag link depth' (before ++ items) := by
  induction items generalizing head a depth before with
  | nil => exact ⟨head, a, depth, rfl, hdepth, by rwa [List.append_nil]⟩
  | cons item rest ih =>
    have hsize : depth + 1 ≤ (a.nodes.push ⟨.keyword tag, head, some item⟩).size := by
      rw [Array.size_push]
      omega
    have hnext := ih (a := { a with nodes := a.nodes.push ⟨.keyword tag, head, some item⟩ })
      (h.push item) hsize
    rw [List.append_assoc, List.singleton_append] at hnext
    exact hnext

/-- What is chained is read back, whatever is built afterwards. -/
theorem elementIds_chain (a : Arena) (tag : Keyword) {items : List NodeId} (hitems : items ≠ [])
    (steps : List Step) :
    ∃ head b,
        (do let head ← chain tag items; steps.forM Step.perform; return head).run a =
          (some head, b) ∧
      (b.term head).elementIds tag = .ok (items.map some) := by
  obtain ⟨link, b, depth, hrun, hdepth, hlists⟩ :=
    lists_chainFrom tag items (.nil a.nodes tag) (Nat.zero_le _)
  rw [List.nil_append] at hlists
  have hgrows := Step.grows_forM_perform steps b
  cases link with
  | none =>
    have hnone := hlists b List.prefix_rfl depth le_rfl
    rw [unfold_none, Term.elementIds_absent, Except.ok.injEq, eq_comm, List.map_eq_nil_iff] at hnone
    exact absurd hnone hitems
  | some head =>
    refine ⟨head, ((steps.forM Step.perform).run b).2, ?_, ?_⟩
    · have hchain : (chain tag items).run a = (some head, b) := hrun
      simp only [StateT.run_bind, hchain]
      rfl
    · rw [term, termOf_eq_unfold]
      have hsize : b.nodes.size ≤ ((steps.forM Step.perform).run b).2.nodes.size := by
        simpa using hgrows.length_le
      exact hlists _ hgrows _ (hdepth.trans hsize)

end Build

namespace Arena

/-- The node is a keyword of the name. -/
def HasTag (a : Arena) (tag : Keyword) (id : NodeId) : Prop :=
  ∃ n, a.node? id = some n ∧ n.kind = .keyword tag

/-- The node is a keyword of the name and has an element. -/
structure IsLink (a : Arena) (tag : Keyword) (id : NodeId) : Prop where
  tag : a.HasTag tag id
  element : a.right? id ≠ none

/-- Why a node is no link. -/
inductive Fault (a : Arena) (tag : Keyword) (id : NodeId) : CompileError → Prop
  | tag : ¬ a.HasTag tag id → Fault a tag id (.unexpectedNode id (Term.quotedKeyword tag))
  | element :
      a.HasTag tag id → a.right? id = none → Fault a tag id (.missingChild id "list element")

/-- The nodes along left links, from a node to the one that has no left link. -/
inductive Spine (a : Arena) : NodeId → List NodeId → Prop
  | last {id : NodeId} : a.left? id = none → Spine a id [id]
  | link {id next : NodeId} {inner : List NodeId} : a.left? id = some next → Spine a next inner →
      Spine a id (id :: inner)

variable {a : Arena} {tag : Keyword}

/-- In an arena without cycles every spine has an end. -/
theorem Acyclic.exists_spine (ha : a.Acyclic) (head : NodeId) : ∃ spine, a.Spine head spine := by
  -- on the number of nodes below the head
  have hcount : ∀ count head, (head < a.nodes.size → (a.below head).card < count) →
      ∃ spine, a.Spine head spine := by
    intro count
    induction count with
    | zero =>
      intro head hhead
      have hout : a.nodes[head]? = none := by
        rw [Array.getElem?_eq_none_iff]
        exact Nat.le_of_not_lt fun hlt => Nat.not_lt_zero _ (hhead hlt)
      exact ⟨[head], .last (by simp [left?, node?, hout])⟩
    | succ count ih =>
      intro head hhead
      cases hnext : a.left? head with
      | none => exact ⟨[head], .last hnext⟩
      | some next =>
        have hlink : a.link? head .left = some next := hnext
        have hlt := hhead (lt_size_of_link? hlink)
        obtain ⟨inner, hinner⟩ := ih next fun hrange => by
          have hfewer := ha.card_below_lt (child_of_link? hlink) hrange
          omega
        exact ⟨head :: inner, .link hnext hinner⟩
  exact hcount a.nodes.size head ha.card_below_lt_size

/-- What a link adds to the chain on its left side. -/
theorem Acyclic.elementIds_of_isLink (ha : a.Acyclic) {id : NodeId} (h : a.IsLink tag id) :
    (a.term id).elementIds tag =
      ((a.termOf (a.left? id)).elementIds tag).map (· ++ [a.right? id]) := by
  obtain ⟨⟨n, hn, hkind⟩, helement⟩ := h
  obtain ⟨item, hitem⟩ := Option.ne_none_iff_exists'.mp helement
  have hright : n.right = some item := by simpa [right?, hn] using hitem
  have hid : (a.termOf n.right).id? = some item := by rw [termOf_eq_unfold, id?_unfold, hright]
  have hleft : a.left? id = n.left := by simp [left?, hn]
  rw [term, ha.termOf_some hn, hkind, Term.elementIds_link hid, hleft, hitem]

/-- The elements of a chain of links, from the inside out. -/
theorem Spine.elementIds_of_isLink (ha : a.Acyclic) {head : NodeId} {spine : List NodeId}
    (h : a.Spine head spine) (hlinks : ∀ id ∈ spine, a.IsLink tag id) :
    (a.term head).elementIds tag = .ok (spine.map a.right?).reverse := by
  induction h with
  | last hnext =>
    rw [ha.elementIds_of_isLink (hlinks _ List.mem_cons_self), hnext]
    rfl
  | link hnext _ ih =>
    obtain ⟨hhead, hinner⟩ := List.forall_mem_cons.mp hlinks
    have helements := ih hinner
    rw [term] at helements
    rw [ha.elementIds_of_isLink hhead, hnext, helements, List.map_cons, List.reverse_cons]
    rfl

/-- A node that is no link is reported. -/
theorem Fault.elementIds_eq (ha : a.Acyclic) {id : NodeId} {e : CompileError}
    (h : a.Fault tag id e) : (a.term id).elementIds tag = .error e := by
  cases h with
  | tag htag =>
    cases hn : a.node? id with
    | none => rw [term, termOf_eq_unfold, unfold_of_none hn, Term.elementIds_dangling]
    | some n =>
      rw [term, ha.termOf_some hn]
      exact Term.elementIds_of_ne fun hkind => htag ⟨n, hn, hkind⟩
  | element htag hright =>
    obtain ⟨n, hn, hkind⟩ := htag
    have hnone : n.right = none := by simpa [right?, hn] using hright
    rw [term, ha.termOf_some hn, hkind, hnone]
    exact Term.elementIds_bare id _

/-- Of the nodes that are no links the one nearest to the head is reported. -/
theorem Spine.elementIds_of_fault (ha : a.Acyclic) {head bad : NodeId}
    {spine before after : List NodeId}
    {e : CompileError} (h : a.Spine head spine) (hspine : spine = before ++ bad :: after)
    (hbefore : ∀ id ∈ before, a.IsLink tag id) (hbad : a.Fault tag bad e) :
    (a.term head).elementIds tag = .error e := by
  induction h generalizing before with
  | last hnext =>
    cases before with
    | nil =>
      cases hspine
      exact hbad.elementIds_eq ha
    | cons outer before => simp at hspine
  | link hnext _ ih =>
    cases before with
    | nil =>
      cases hspine
      exact hbad.elementIds_eq ha
    | cons outer before =>
      obtain ⟨rfl, hinner⟩ := List.cons.inj hspine
      obtain ⟨houter, hbefore⟩ := List.forall_mem_cons.mp hbefore
      have herror := ih hinner hbefore
      rw [term] at herror
      rw [ha.elementIds_of_isLink houter, hnext, herror]
      rfl

theorem exists_fault {id : NodeId} (h : ¬ a.IsLink tag id) : ∃ e, a.Fault tag id e := by
  by_cases htag : a.HasTag tag id
  · have hright : a.right? id = none := by
      by_contra helement
      exact h ⟨htag, helement⟩
    exact ⟨_, .element htag hright⟩
  · exact ⟨_, .tag htag⟩

/-- Nodes are all links, or there is a first one that is none. -/
theorem links_or_fault (tag : Keyword) (ids : List NodeId) :
    (∀ id ∈ ids, a.IsLink tag id) ∨ ∃ before bad after e, ids = before ++ bad :: after ∧
      (∀ id ∈ before, a.IsLink tag id) ∧ a.Fault tag bad e := by
  induction ids with
  | nil => exact .inl (List.forall_mem_nil _)
  | cons id rest ih =>
    by_cases hid : a.IsLink tag id
    · rcases ih with hrest | ⟨before, bad, after, e, rfl, hbefore, hbad⟩
      · exact .inl (List.forall_mem_cons.mpr ⟨hid, hrest⟩)
      · exact .inr ⟨id :: before, bad, after, e, rfl, List.forall_mem_cons.mpr ⟨hid, hbefore⟩, hbad⟩
    · obtain ⟨e, hbad⟩ := exists_fault hid
      exact .inr ⟨[], id, rest, e, rfl, List.forall_mem_nil _, hbad⟩

theorem Spine.elementIds_eq_ok (ha : a.Acyclic) {head : NodeId} {spine : List NodeId}
    (h : a.Spine head spine) {items : List (Option NodeId)} :
    (a.term head).elementIds tag = .ok items ↔
      (∀ id ∈ spine, a.IsLink tag id) ∧ items = (spine.map a.right?).reverse := by
  constructor
  · intro hok
    rcases links_or_fault tag spine with hlinks | ⟨before, bad, after, e, hspine, hbefore, hbad⟩
    · rw [h.elementIds_of_isLink ha hlinks] at hok
      exact ⟨hlinks, (Except.ok.inj hok).symm⟩
    · rw [h.elementIds_of_fault ha hspine hbefore hbad] at hok
      cases hok
  · intro hchain
    rw [hchain.2]
    exact h.elementIds_of_isLink ha hchain.1

theorem Spine.elementIds_eq_error (ha : a.Acyclic) {head : NodeId} {spine : List NodeId}
    (h : a.Spine head spine) {e : CompileError} :
    (a.term head).elementIds tag = .error e ↔ ∃ before bad after, spine = before ++ bad :: after ∧
      (∀ id ∈ before, a.IsLink tag id) ∧ a.Fault tag bad e := by
  constructor
  · intro herror
    rcases links_or_fault tag spine with hlinks | ⟨before, bad, after, e', hspine, hbefore, hbad⟩
    · rw [h.elementIds_of_isLink ha hlinks] at herror
      cases herror
    · rw [h.elementIds_of_fault ha hspine hbefore hbad] at herror
      cases herror
      exact ⟨before, bad, after, hspine, hbefore, hbad⟩
  · intro hfault
    obtain ⟨before, bad, after, hspine, hbefore, hbad⟩ := hfault
    exact h.elementIds_of_fault ha hspine hbefore hbad

end Arena

/-- A list of nodes that is chained is read back in its order, in whatever arena, and whatever is
built afterwards. In an arena without cycles a head is read exactly if all nodes of its spine are
links, and gives the nodes on their right sides, from the inside out; if not, the error names the
node nearest to the head that is no link and says what it lacks. Heads and links are meant to be
positions of the arena itself. One that has no node in it, such as a position of another arena,
counts as no link; a reader may as well stop there without an error. -/
theorem chain_and_elements_inverse :
    (∀ (a : Arena) (tag : Keyword) (items : List NodeId), items ≠ [] → ∀ steps : List Build.Step,
      ∃ head b,
          (do let head ← Build.chain tag items; steps.forM Build.Step.perform; return head).run a =
          (some head, b) ∧
        (b.term head).elementIds tag = .ok (items.map some)) ∧
      ∀ a : Arena, a.Acyclic → ∀ (head : NodeId) (tag : Keyword), (∃ spine, a.Spine head spine) ∧
        ∀ spine, a.Spine head spine →
          (∀ items, (a.term head).elementIds tag = .ok items ↔
            (∀ id ∈ spine, a.IsLink tag id) ∧ items = (spine.map a.right?).reverse) ∧
          ∀ e, (a.term head).elementIds tag = .error e ↔ ∃ before bad after,
            spine = before ++ bad :: after ∧ (∀ id ∈ before, a.IsLink tag id) ∧
              a.Fault tag bad e := by
  constructor
  · intro a tag items hitems steps
    exact Build.elementIds_chain a tag hitems steps
  · intro a ha head tag
    refine ⟨ha.exists_spine head, ?_⟩
    intro spine hspine
    exact ⟨fun items => hspine.elementIds_eq_ok ha, fun e => hspine.elementIds_eq_error ha⟩

/-- A chain of which the items are its own links, which is a cycle, is read back behind a call that
was built on it. A chain with a link that has no element is refused at this link, and the one above
it is not to blame. -/
theorem chain_and_elements_inverse_broken :
    let a : Arena :=
      ⟨#[⟨.ident "x", none, none⟩, ⟨.keyword .stmt, none, none⟩,
        ⟨.keyword .stmt, some 1, some 0⟩], none⟩
    (∃ head b, (do
        let head ← Build.chain .param [1, 0]
        [Build.Step.call "f" [0], .setRoot 1].forM Build.Step.perform
        return head).run Arena.empty = (some head, b) ∧
      (b.term head).elementIds .param = .ok [some 1, some 0]) ∧
      a.Acyclic ∧ a.Spine 2 [2, 1] ∧
      (a.term 2).elementIds .stmt = .error (.missingChild 1 "list element") := by
  intro a
  obtain ⟨hchain, hread⟩ := chain_and_elements_inverse
  have hacyclic : a.Acyclic := (Arena.sound_of_isOrdered rfl (Arena.inRange_none a)).acyclic
  have hspine : a.Spine 2 [2, 1] := .link rfl (.last rfl)
  have houter : a.IsLink .stmt 2 := ⟨⟨_, rfl, rfl⟩, by decide⟩
  have hinner : a.Fault .stmt 1 (.missingChild 1 "list element") := .element ⟨_, rfl, rfl⟩ rfl
  have hbefore : ∀ id ∈ [2], a.IsLink .stmt id := by simpa using houter
  exact ⟨hchain .empty .param [1, 0] (by decide) [.call "f" [0], .setRoot 1], hacyclic, hspine,
    (((hread a hacyclic 2 .stmt).2 [2, 1] hspine).2 _).mpr ⟨[2], 1, [], rfl, hbefore, hinner⟩⟩

end StackCompiler
