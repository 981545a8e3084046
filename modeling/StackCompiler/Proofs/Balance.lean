import StackCompiler.Proofs.StackShape

/-!
# Calls are balanced in every run

In every run of a compiled program each running or waiting function has its own values on top of
what was on the evaluation stack when it was called, and these values have the shape that its place
in the code asks for. Hence no instruction lacks an operand, and at a `ret` the stack and the frame
base are those right after the call that it answers. A body that ends without a `ret` runs into the
block behind it, which starts with the same shape, so that such bodies need not be excluded.
-/
namespace StackCompiler

open Lowering (rulesOf)

namespace Machine

variable (m : Machine)

/-- The number that a frame size is. -/
def nat (n : Nat) : m.Value :=
  m.literal (.ofNat n)

/-- A value is as its slot says, for a function with the frame base `x`. -/
def Holds (x : m.Value) : Slot → m.Value → Prop
  | .any, _ => True
  | .base, v => v = x
  | .size n, v => v = m.nat n
  | .shifted n, v => m.binary .add x (m.nat n) v

/-- Adding and then subtracting a frame size gives the frame base back. -/
def Cancels (R : Rules) (x : m.Value) : Prop :=
  ∀ n, R.Size n → ∀ v r, m.binary .add x (m.nat n) v → m.binary .sub v (m.nat n) r → r = x

/-- A function with the frame base `x` that was called on the stack `below` can go on with `rest`
when the stack is `stack` and `bx` is `b`. Here `c` is what `cx` holds, and `cx` what is known of
it. -/
def Continues (R : Rules) (c x : m.Value) (below : List m.Value) (cx : Slot) (rest : List Item)
    (stack : List m.Value) (b : m.Value) : Prop :=
  ∃ shape temps, Admits R shape rest ∧ shape.cx = cx ∧ m.Holds x cx c ∧
    List.Forall₂ (m.Holds x) shape.temps temps ∧ m.Holds x shape.bx b ∧ stack = temps ++ below

variable {m} {R : Rules} {code : List Item} {c x : m.Value} {below : List m.Value} {cx : Slot}

/-- The topmost value is as the topmost slot says. -/
theorem holds_top {slot : Slot} {τ : List Slot} {temps σ : List m.Value} {v : m.Value}
    (htemps : List.Forall₂ (m.Holds x) (slot :: τ) temps) (hstack : v :: σ = temps ++ below) :
    m.Holds x slot v ∧ ∃ temps', List.Forall₂ (m.Holds x) τ temps' ∧ σ = temps' ++ below := by
  cases htemps with
  | cons htop hrest =>
    obtain ⟨rfl, hσ⟩ := List.cons.inj hstack
    exact ⟨htop, _, hrest, hσ⟩

theorem Continues.of_pop {slot bx : Slot} {τ : List Slot} {rest : List Item}
    {temps σ : List m.Value}
    {v b : m.Value} (hrest : Admits R ⟨τ, bx, cx⟩ rest) (hcx : m.Holds x cx c)
    (htemps : List.Forall₂ (m.Holds x) (slot :: τ) temps) (hbx : m.Holds x bx b)
    (hstack : v :: σ = temps ++ below) : m.Continues R c x below cx rest σ b := by
  obtain ⟨-, temps', htemps', hσ⟩ := holds_top htemps hstack
  exact ⟨_, temps', hrest, rfl, hcx, htemps', hbx, hσ⟩

theorem Continues.of_push {slot bx : Slot} {τ : List Slot} {rest : List Item}
    {temps σ : List m.Value}
    {v b : m.Value} (hrest : Admits R ⟨slot :: τ, bx, cx⟩ rest) (hcx : m.Holds x cx c)
    (hv : m.Holds x slot v) (htemps : List.Forall₂ (m.Holds x) τ temps) (hbx : m.Holds x bx b)
    (hstack : σ = temps ++ below) : m.Continues R c x below cx rest (v :: σ) b :=
  ⟨_, v :: temps, hrest, rfl, hcx, .cons hv htemps, hbx, congrArg (v :: ·) hstack⟩

/-- A binary operator takes two values and leaves one. It gives the frame base where the code needs
it back. -/
theorem Continues.of_binary {operation : Operation} {rest : List Item} {σ : List m.Value}
    {a b r v : m.Value}
    (h : m.Continues R c x below cx (.instruction (.plain operation) :: rest) (b :: a :: σ) v)
    (hcancels : m.Cancels R x) (hbinary : operation.isBinary = true)
    (hresult : m.binary operation a b r) : m.Continues R c x below cx rest (r :: σ) v := by
  obtain ⟨shape, temps, hadmits, rfl, hcx, htemps, hbx, hstack⟩ := h
  cases hadmits with
  | binary _ hrest =>
    obtain ⟨-, temps', htemps', hstack'⟩ := holds_top htemps hstack
    obtain ⟨-, temps'', htemps'', hstack''⟩ := holds_top htemps' hstack'
    exact .of_push hrest hcx trivial htemps'' hbx hstack''
  | add hrest =>
    obtain ⟨rfl, temps', htemps', hstack'⟩ := holds_top htemps hstack
    obtain ⟨rfl, temps'', htemps'', hstack''⟩ := holds_top htemps' hstack'
    exact .of_push hrest hcx hresult htemps'' hbx hstack''
  | sub hsize hrest =>
    obtain ⟨rfl, temps', htemps', hstack'⟩ := holds_top htemps hstack
    obtain ⟨hshifted, temps'', htemps'', hstack''⟩ := holds_top htemps' hstack'
    have hbase := hcancels _ hsize _ _ hshifted hresult
    exact .of_push hrest hcx hbase htemps'' hbx hstack''
  | unary hunary _ =>
    rw [Operation.isBinary_of_isUnary hunary] at hbinary
    cases hbinary
  | _ => cases hbinary

/-- What a step does to a running function: it stays in the function, it calls another one, or it
returns. -/
theorem Continues.step {s s' : m.State}
    (h : m.Continues R c x below cx s.rest s.stack (s.registers .bx)) (hc : s.registers .cx = c)
    (hlabels : ∀ l, R.Label l → Admits R (.inner []) (seek l code))
    (hcancels : m.Cancels R x) (hstep : m.Step code s s') :
    s'.registers .cx = c ∧
      ((s'.returns = s.returns ∧
          m.Continues R c x below cx s'.rest s'.stack (s'.registers .bx)) ∨
        (∃ g rest, R.Callee g ∧ s'.rest = seek g code ∧ s'.returns = rest :: s.returns ∧
          s'.stack = s.stack ∧ s'.registers = s.registers ∧
          m.Continues R c x below cx rest s.stack (s.registers .bx)) ∨
        (s.returns = s'.rest :: s'.returns ∧ s'.stack = below ∧ s'.registers .bx = x)) := by
  obtain ⟨shape, temps, hadmits, rfl, hcx, htemps, hbx, hstack⟩ := h
  cases hstep with
  | label =>
    cases hadmits with
    | label hrest => exact ⟨hc, .inl ⟨rfl, _, temps, hrest, rfl, hcx, htemps, hbx, hstack⟩⟩
  | push =>
    cases hadmits with
    | push hrest => exact ⟨hc, .inl ⟨rfl, .of_push hrest hcx trivial htemps hbx hstack⟩⟩
    | pushSize hrest => exact ⟨hc, .inl ⟨rfl, .of_push hrest hcx rfl htemps hbx hstack⟩⟩
    | pushBx hrest => exact ⟨hc, .inl ⟨rfl, .of_push hrest hcx hbx htemps hbx hstack⟩⟩
    | pushCx hrest =>
      subst hc
      exact ⟨rfl, .inl ⟨rfl, .of_push hrest hcx hcx htemps hbx hstack⟩⟩
  | popRegister =>
    cases hadmits with
    | popBx hrest =>
      have htop := (holds_top htemps hstack).1
      exact ⟨hc, .inl ⟨rfl, .of_pop hrest hcx htemps htop hstack⟩⟩
    | clobberBx hrest => exact ⟨hc, .inl ⟨rfl, .of_pop hrest hcx htemps trivial hstack⟩⟩
    | popRegister hr hrest =>
      rcases hr with rfl | rfl
      · exact ⟨hc, .inl ⟨rfl, .of_pop hrest hcx htemps hbx hstack⟩⟩
      · exact ⟨hc, .inl ⟨rfl, .of_pop hrest hcx htemps hbx hstack⟩⟩
  | popMemory =>
    cases hadmits with
    | popMemory hrest => exact ⟨hc, .inl ⟨rfl, .of_pop hrest hcx htemps hbx hstack⟩⟩
  | drop =>
    cases hadmits with
    | drop hrest => exact ⟨hc, .inl ⟨rfl, .of_pop hrest hcx htemps hbx hstack⟩⟩
  | jump =>
    cases hadmits with
    | jump hl _ => exact ⟨hc, .inl ⟨rfl, _, temps, hlabels _ hl, rfl, hcx, htemps, hbx, hstack⟩⟩
  | jumpEqual =>
    cases hadmits with
    | jumpEq hl _ =>
      obtain ⟨-, temps', htemps', hstack'⟩ := holds_top htemps hstack
      exact ⟨hc, .inl ⟨rfl, .of_pop (hlabels _ hl) hcx htemps' hbx hstack'⟩⟩
  | passUnequal =>
    cases hadmits with
    | jumpEq _ hrest =>
      obtain ⟨-, temps', htemps', hstack'⟩ := holds_top htemps hstack
      exact ⟨hc, .inl ⟨rfl, .of_pop hrest hcx htemps' hbx hstack'⟩⟩
  | call =>
    cases hadmits with
    | call hcallee hrest =>
      exact ⟨hc, .inr (.inl ⟨_, _, hcallee, rfl, rfl, rfl, rfl, shape, temps, hrest, rfl, hcx,
        htemps, hbx, hstack⟩)⟩
  | ret =>
    cases hadmits with
    | ret _ =>
      cases htemps
      exact ⟨hc, .inr (.inr ⟨rfl, hstack, hbx⟩)⟩
    | unary hoperation _ => cases hoperation
    | binary hoperation _ => cases hoperation
  | unary hunary _ =>
    cases hadmits with
    | unary _ hrest =>
      obtain ⟨-, temps', htemps', hstack'⟩ := holds_top htemps hstack
      exact ⟨hc, .inl ⟨rfl, .of_push hrest hcx trivial htemps' hbx hstack'⟩⟩
    | binary hbinary _ =>
      rw [Operation.isBinary_of_isUnary hunary] at hbinary
      cases hbinary
    | _ => cases hunary
  | binary hbinary hresult =>
    have hgoes : m.Continues R c x below shape.cx _ _ _ :=
      ⟨shape, temps, hadmits, rfl, hcx, htemps, hbx, hstack⟩
    exact ⟨hc, .inl ⟨rfl, hgoes.of_binary hcancels hbinary hresult⟩⟩
  | input =>
    cases hadmits with
    | input hrest => exact ⟨hc, .inl ⟨rfl, .of_push hrest hcx trivial htemps hbx hstack⟩⟩
    | unary hoperation _ => cases hoperation
    | binary hoperation _ => cases hoperation
  | out =>
    cases hadmits with
    | out hrest => exact ⟨hc, .inl ⟨rfl, .of_pop hrest hcx htemps hbx hstack⟩⟩
    | unary hoperation _ => cases hoperation
    | binary hoperation _ => cases hoperation
  | shw =>
    cases hadmits with
    | shw hrest =>
      obtain ⟨-, temps', htemps', hstack'⟩ := holds_top htemps hstack
      exact ⟨hc, .inl ⟨rfl, .of_pop hrest hcx htemps' hbx hstack'⟩⟩
    | unary hoperation _ => cases hoperation
    | binary hoperation _ => cases hoperation

/-- Every instruction finds its operands. -/
theorem Continues.pops_le {i : Instruction} {rest : List Item} {σ : List m.Value} {b : m.Value}
    (h : m.Continues R c x below cx (.instruction i :: rest) σ b) : i.pops ≤ σ.length := by
  obtain ⟨shape, temps, hadmits, -, -, htemps, -, rfl⟩ := h
  have hpops := hadmits.pops_le
  have hlength := htemps.length_eq
  rw [List.length_append]
  omega

theorem Continues.callee {g : String} {rest : List Item} {σ : List m.Value} {b : m.Value}
    (h : m.Continues R c x below cx (.instruction (.transfer .call g) :: rest) σ b) :
    R.Callee g := by
  obtain ⟨shape, temps, hadmits, -⟩ := h
  cases hadmits with
  | call hcallee _ => exact hcallee

theorem Continues.ret {rest : List Item} {σ : List m.Value} {b : m.Value}
    (h : m.Continues R c x below cx (.instruction (.plain .ret) :: rest) σ b) :
    cx = .any ∧ σ = below ∧ b = x := by
  obtain ⟨shape, temps, hadmits, rfl, -, htemps, hbx, rfl⟩ := h
  cases hadmits with
  | ret _ =>
    cases htemps
    exact ⟨rfl, rfl, hbx⟩
  | unary hoperation _ => cases hoperation
  | binary hoperation _ => cases hoperation

theorem Continues.halt {rest : List Item} {σ : List m.Value} {b : m.Value}
    (h : m.Continues R c x below cx (.instruction (.plain .halt) :: rest) σ b) :
    cx = .base ∧ σ = below := by
  obtain ⟨shape, temps, hadmits, rfl, -, htemps, -, rfl⟩ := h
  cases hadmits with
  | halt =>
    cases htemps
    exact ⟨rfl, rfl⟩
  | unary hoperation _ => cases hoperation
  | binary hoperation _ => cases hoperation

/-- Places that control is transferred to are set in the code and can be executed from an empty
stack. -/
structure Landings (R : Rules) (code : List Item) : Prop where
  label : ∀ l, R.Label l → Admits R (.inner []) (seek l code)
  callee : ∀ g, R.Callee g → R.Label g ∧ .label g ∈ code

/-- A function that was just called can start. -/
theorem Landings.continues (h : Landings R code) {g : String} (hg : R.Callee g) (c x : m.Value)
    (σ : List m.Value) : m.Continues R c x σ .any (seek g code) σ x := by
  have hadmits := h.label g (h.callee g hg).1
  exact ⟨.inner [], [], hadmits, rfl, trivial, .nil, rfl, rfl⟩

variable (m) in
/-- The function that a part of a run starts in: its frame base, the stack below it, the calls under
way, and what is known of `cx`. -/
structure Ground where
  cx : Slot
  base : m.Value
  below : List m.Value
  returns : List (List Item)

variable (m) in
/-- The running function, and each of those that wait for it down to the ground, can go on. -/
inductive Nested (R : Rules) (c : m.Value) (G : m.Ground) :
    List Item → List (List Item) → List m.Value → m.Value → Prop
  | ground {rest σ b} :
      m.Continues R c G.base G.below G.cx rest σ b → Nested R c G rest G.returns σ b
  | above {rest r κ σ b x below} : m.Cancels R x → m.Continues R c x below .any rest σ b →
      Nested R c G r κ below x → Nested R c G rest (r :: κ) σ b

variable {G : m.Ground}

theorem Nested.length_le {rest : List Item} {κ : List (List Item)} {σ : List m.Value} {b : m.Value}
    (h : m.Nested R c G rest κ σ b) : G.returns.length ≤ κ.length := by
  induction h with
  | ground _ => exact Nat.le_refl _
  | above _ _ _ ih => exact Nat.le_succ_of_le ih

theorem Nested.continues {rest : List Item} {κ : List (List Item)} {σ : List m.Value} {b : m.Value}
    (h : m.Nested R c G rest κ σ b) : ∃ x below cx, m.Continues R c x below cx rest σ b := by
  cases h with
  | ground h => exact ⟨_, _, _, h⟩
  | above _ h _ => exact ⟨_, _, _, h⟩

theorem Nested.continues_ground {rest : List Item} {κ : List (List Item)} {σ : List m.Value}
    {b : m.Value} (h : m.Nested R c G rest κ σ b) (hdepth : κ.length = G.returns.length) :
    m.Continues R c G.base G.below G.cx rest σ b := by
  cases h with
  | ground h => exact h
  | above _ _ hwaiting =>
    have hlength := hwaiting.length_le
    rw [List.length_cons] at hdepth
    omega

/-- Code outside of functions does not return. -/
theorem Nested.ret {rest : List Item} {κ : List (List Item)} {σ : List m.Value} {b : m.Value}
    (h : m.Nested R c G (.instruction (.plain .ret) :: rest) κ σ b) (hcx : G.cx = .base) :
    ∃ r κ', κ = r :: κ' := by
  cases h with
  | ground h =>
    have hany := h.ret.1
    rw [hcx] at hany
    cases hany
  | above _ _ _ => exact ⟨_, _, rfl⟩

/-- Functions do not halt. -/
theorem Nested.halt {rest : List Item} {κ : List (List Item)} {σ : List m.Value} {b : m.Value}
    (h : m.Nested R c G (.instruction (.plain .halt) :: rest) κ σ b) : σ = G.below := by
  cases h with
  | ground h => exact h.halt.2
  | above _ h _ => cases h.halt.1

/-- A step keeps this, unless it returns from the ground. -/
theorem Nested.step {s s' : m.State} (h : m.Nested R c G s.rest s.returns s.stack (s.registers .bx))
    (hc : s.registers .cx = c) (hland : Landings R code) (hground : m.Cancels R G.base)
    (hentered : ∀ g rest, R.Callee g → s'.rest = .label g :: rest → m.Cancels R (s'.registers .bx))
    (hstep : m.Step code s s') (hdepth : G.returns.length ≤ s'.returns.length) :
    s'.registers .cx = c ∧ m.Nested R c G s'.rest s'.returns s'.stack (s'.registers .bx) := by
  have hcall : ∀ g rest, R.Callee g → s'.rest = seek g code → s'.returns = rest :: s.returns →
      s'.stack = s.stack → s'.registers = s.registers →
      m.Nested R c G rest s.returns s.stack (s.registers .bx) →
      m.Nested R c G s'.rest s'.returns s'.stack (s'.registers .bx) := by
    intro g rest hcallee hrest hreturns hstack hregisters hwaiting
    obtain ⟨body, hbody⟩ := seek_of_mem (hland.callee g hcallee).2
    have hcancels := hentered g body hcallee (hrest.trans hbody)
    rw [hrest, hreturns, hstack]
    rw [hregisters] at hcancels ⊢
    exact .above hcancels (hland.continues hcallee c _ _) hwaiting
  obtain ⟨rest, σ, ρ, w, κ⟩ := s
  cases h with
  | ground hgoes =>
    obtain ⟨hc', ⟨hreturns, hgoes'⟩ |
      ⟨g, rest', hcallee, hrest, hreturns, hstack, hregisters, hgoes'⟩ |
      ⟨hreturns, -, -⟩⟩ := hgoes.step hc hland.label hground hstep
    · rw [hreturns]
      exact ⟨hc', .ground hgoes'⟩
    · exact ⟨hc', hcall g rest' hcallee hrest hreturns hstack hregisters (.ground hgoes')⟩
    · have hlength : G.returns.length = s'.returns.length + 1 := congrArg List.length hreturns
      omega
  | above hcancels hgoes hwaiting =>
    obtain ⟨hc', ⟨hreturns, hgoes'⟩ |
      ⟨g, rest', hcallee, hrest, hreturns, hstack, hregisters, hgoes'⟩ |
      ⟨hreturns, hstack, hbx⟩⟩ := hgoes.step hc hland.label hcancels hstep
    · rw [hreturns]
      exact ⟨hc', .above hcancels hgoes' hwaiting⟩
    · exact ⟨hc', hcall g rest' hcallee hrest hreturns hstack hregisters
        (.above hcancels hgoes' hwaiting)⟩
    · obtain ⟨rfl, rfl⟩ := List.cons.inj hreturns
      rw [hstack, hbx]
      exact ⟨hc', hwaiting⟩

variable (m) in
/-- Steps after each of which at least `depth` calls are under way. -/
def Inside (code : List Item) (depth : Nat) : m.State → m.State → Prop :=
  Relation.ReflTransGen fun s s' => m.Step code s s' ∧ depth ≤ s'.returns.length

theorem Inside.reaches {depth : Nat} {s s' : m.State} (h : m.Inside code depth s s') :
    m.Reaches code s s' :=
  Relation.ReflTransGen.mono (fun _ _ hstep => hstep.1) s s' h

theorem Reaches.inside {s s' : m.State} (h : m.Reaches code s s') : m.Inside code 0 s s' :=
  Relation.ReflTransGen.mono (fun _ _ hstep => ⟨hstep, Nat.zero_le _⟩) s s' h

variable (m) in
/-- A run from `start` enters a function with `x` in `bx`. -/
def Enters (R : Rules) (code : List Item) (start : m.State) (x : m.Value) : Prop :=
  ∃ s g rest, m.Reaches code start s ∧ R.Callee g ∧ s.rest = .label g :: rest ∧ s.registers .bx = x

theorem Nested.run {s s' : m.State} (h : m.Nested R c G s.rest s.returns s.stack (s.registers .bx))
    (hc : s.registers .cx = c) (hland : Landings R code) (hground : m.Cancels R G.base)
    (hentered : ∀ x, m.Enters R code s x → m.Cancels R x)
    (hrun : m.Inside code G.returns.length s s') :
    s'.registers .cx = c ∧ m.Nested R c G s'.rest s'.returns s'.stack (s'.registers .bx) := by
  induction hrun with
  | refl => exact ⟨hc, h⟩
  | tail hbefore hlast ih =>
    obtain ⟨hc', hnested⟩ := ih
    apply hnested.step hc' hland hground _ hlast.1 hlast.2
    intro g rest hcallee hrest
    have hreached := (Inside.reaches hbefore).trans hlast.1.reaches
    exact hentered _ ⟨_, g, rest, hreached, hcallee, hrest, rfl⟩

variable (m) in
/-- In a run from `start` the call at `s₁` leads to `s₂`, and it is still under way at `s₃`. -/
structure UnderWay (code : List Item) (start s₁ s₂ s₃ : m.State) : Prop where
  reached : m.Reaches code start s₁
  calls : ∃ g rest, s₁.rest = .instruction (.transfer .call g) :: rest
  enters : m.Step code s₁ s₂
  inside : m.Inside code s₂.returns.length s₂ s₃

variable (m) in
/-- The call at `s₁` is the last one that is under way at `s₃`: a `ret` there belongs to it. -/
structure Matches (code : List Item) (start s₁ s₂ s₃ : m.State) : Prop
    extends m.UnderWay code start s₁ s₂ s₃ where
  last : s₃.returns.length = s₂.returns.length

/-- What a step does to the calls under way. -/
theorem Step.returns {s s' : m.State} (h : m.Step code s s') :
    s'.returns = s.returns ∨
      (∃ g rest, s.rest = .instruction (.transfer .call g) :: rest ∧
        s'.returns = rest :: s.returns) ∨
      ∃ r, s.returns = r :: s'.returns := by
  cases h with
  | call => exact .inr (.inl ⟨_, _, rfl, rfl⟩)
  | ret => exact .inr (.inr ⟨_, rfl⟩)
  | _ => exact .inl rfl

/-- Each call under way in a run from where there is none was made in that run. -/
theorem exists_underWay {start s : m.State} (hstart : start.returns = [])
    (h : m.Reaches code start s) {r : List Item} {κ : List (List Item)}
    (hsuffix : (r :: κ) <:+ s.returns) :
    ∃ s₁ s₂, m.UnderWay code start s₁ s₂ s ∧ s₂.returns = r :: κ := by
  induction h with
  | refl =>
    rw [hstart] at hsuffix
    cases List.suffix_nil.mp hsuffix
  | @tail s s' hbefore hstep ih =>
    -- a call that is under way after the step was so before it, unless the step is that call
    have hearlier : (r :: κ) <:+ s.returns →
        ∃ s₁ s₂, m.UnderWay code start s₁ s₂ s' ∧ s₂.returns = r :: κ := by
      intro hs
      obtain ⟨s₁, s₂, hcall, hreturns⟩ := ih hs
      have hlength := hsuffix.length_le
      rw [← hreturns] at hlength
      exact ⟨s₁, s₂, { hcall with inside := hcall.inside.tail ⟨hstep, hlength⟩ }, hreturns⟩
    rcases hstep.returns with hsame | ⟨g, rest, hcall, hmore⟩ | ⟨r', hless⟩
    · rw [hsame] at hsuffix
      exact hearlier hsuffix
    · rw [hmore, List.suffix_cons_iff] at hsuffix
      rcases hsuffix with hnew | hold
      · exact ⟨s, s', ⟨hbefore, ⟨g, rest, hcall⟩, hstep, .refl⟩, hmore.trans hnew.symm⟩
      · exact hearlier hold
    · apply hearlier
      rw [hless]
      exact hsuffix.trans (List.suffix_cons r' s'.returns)

/-- The state before the first instruction, with an empty stack and no call under way. -/
def initial (m : Machine) (p : Program) (ρ : Register → m.Value) (w : World m) : m.State :=
  ⟨p.code.commands, [], ρ, w, []⟩

/-- The frame bases of all runs of a program: where its globals lie, and where the functions that
are entered have their locals. -/
def FrameBase (m : Machine) (p : Program) (start : m.State) (x : m.Value) : Prop :=
  x = start.registers .cx ∨ m.Enters (rulesOf p) p.code.commands start x

theorem Step.of_call {s s' : m.State} (h : m.Step code s s') {g : String} {rest : List Item}
    (hcall : s.rest = .instruction (.transfer .call g) :: rest) :
    s'.rest = seek g code ∧ s'.registers = s.registers := by
  obtain ⟨_, σ, ρ, w, κ⟩ := s
  cases hcall
  cases h
  exact ⟨rfl, rfl⟩

/-- At a `ret` the stack and the frame base are those right after the call that it belongs to. -/
theorem Matches.ret {start s₁ s₂ s₃ : m.State} (h : m.Matches code start s₁ s₂ s₃)
    (hland : Landings R code) (hentered : ∀ x, m.Enters R code start x → m.Cancels R x)
    (hcallee : ∀ g rest, s₁.rest = .instruction (.transfer .call g) :: rest → R.Callee g)
    {rest : List Item} (hret : s₃.rest = .instruction (.plain .ret) :: rest) :
    s₃.stack = s₂.stack ∧ s₃.registers .bx = s₂.registers .bx := by
  obtain ⟨g, rest₁, hcall⟩ := h.calls
  have hg := hcallee g rest₁ hcall
  have hseek := (h.enters.of_call hcall).1
  have hreached : m.Reaches code start s₂ := h.reached.trans h.enters.reaches
  obtain ⟨body, hbody⟩ := seek_of_mem (hland.callee g hg).2
  have hcancels := hentered _ ⟨s₂, g, body, hreached, hg, hseek.trans hbody, rfl⟩
  -- the run inside the call is looked at by itself, with the callee as its ground
  have hentry : m.Nested R (s₂.registers .cx)
      ⟨.any, s₂.registers .bx, s₂.stack, s₂.returns⟩ s₂.rest s₂.returns s₂.stack
      (s₂.registers .bx) := by
    apply Nested.ground
    rw [hseek]
    exact hland.continues hg _ _ _
  have hlater : ∀ x, m.Enters R code s₂ x → m.Cancels R x := by
    rintro x ⟨s, g', rest', hs, hstate⟩
    exact hentered x ⟨s, g', rest', hreached.trans hs, hstate⟩
  obtain ⟨-, hend⟩ := hentry.run rfl hland hcancels hlater h.inside
  have hgoes := hend.continues_ground h.last
  rw [hret] at hgoes
  exact hgoes.ret.2

/-- Frame sizes cancel on the whole numbers. -/
theorem integers_cancels (R : Rules) (x : Int) : integers.Cancels R x := by
  intro n _ v r hadd hsub
  cases hadd
  cases hsub
  exact Int.add_sub_cancel _ _

theorem Step.leads {P : m.State → Prop} {s u : m.State} (h : m.Step code s u)
    (hu : ∃ s', m.Reaches code u s' ∧ P s') : ∃ s', m.Reaches code s s' ∧ P s' := by
  obtain ⟨s', hs', hP⟩ := hu
  exact ⟨s', h.andThen hs', hP⟩

end Machine

namespace Lowering

theorem Anatomy.landings {t : Term} {p : Program} {start bodies : Code}
    (h : Anatomy t p start bodies) (hin : t.bareInputs = true)
    (hentry : (p.functions.get? Program.entry).isSome = true) :
    Machine.Landings (rulesOf p) p.code.commands where
  label := (h.admits hin hentry).2
  callee := by
    rintro _ ⟨f, hf, rfl⟩
    have hlabel : f.name ∈ p.code.labels := by
      rw [h.labels_code]
      exact h.definesAll.name_mem hf
    refine ⟨hlabel, ?_⟩
    rwa [← Machine.mem_labels_iff, Code.filterMap_commands]

/-- Nothing is on the stack at the start, and the opening has the globals' frame. -/
theorem Anatomy.nested_initial {t : Term} {p : Program} {start bodies : Code}
    (h : Anatomy t p start bodies) (hin : t.bareInputs = true)
    (hentry : (p.functions.get? Program.entry).isSome = true) (m : Machine)
    (ρ : Register → m.Value) (w : World m) :
    m.Nested (rulesOf p) (ρ .cx) ⟨.base, ρ .cx, [], []⟩ (m.initial p ρ w).rest [] []
      (ρ .bx) := by
  have hadmits := (h.admits hin hentry).1
  apply Machine.Nested.ground
  exact ⟨_, [], hadmits, rfl, rfl, .nil, trivial, rfl⟩

end Lowering

open Lowering in
/-- Calls are balanced in every run of a program compiled from a tree: each instruction finds its
operands, at each `ret` the stack and the frame base are those right after the call that it belongs
to, and at `halt` the stack is empty. -/
theorem calls_balanced_in_every_run (t : Tree) (p : Program) (h : (Arena.ofTree t).compile = .ok p)
    (hentry : (p.functions.get? Program.entry).isSome = true) (hin : t.bareInputs = true)
    (m : Machine) (ρ : Register → m.Value) (w : World m)
    (hcancel : ∀ x, m.FrameBase p (m.initial p ρ w) x → m.Cancels (rulesOf p) x) (s : m.State)
    (hs : m.Reaches p.code.commands (m.initial p ρ w) s) :
    (∀ i rest, s.rest = .instruction i :: rest → i.pops ≤ s.stack.length) ∧
      (∀ rest, s.rest = .instruction (.plain .ret) :: rest →
        (∃ s₁ s₂, m.Matches p.code.commands (m.initial p ρ w) s₁ s₂ s) ∧
        ∀ s₁ s₂, m.Matches p.code.commands (m.initial p ρ w) s₁ s₂ s →
          s.stack = s₂.stack ∧ s.registers .bx = s₂.registers .bx) ∧
      (∀ rest, s.rest = .instruction (.plain .halt) :: rest → s.stack = []) := by
  obtain ⟨start, bodies, hanatomy⟩ := anatomy_of_compile h
  have hbare : (Arena.ofTree t).rootTerm.bareInputs = true := by
    rw [rootTerm_ofTree, Tree.bareInputs_numbered, hin]
  have hland := hanatomy.landings hbare hentry
  have hentered := fun x hx => hcancel x (.inr hx)
  have hnested : ∀ u, m.Reaches p.code.commands (m.initial p ρ w) u →
      m.Nested (rulesOf p) (ρ .cx) ⟨.base, ρ .cx, [], []⟩ u.rest u.returns u.stack
        (u.registers .bx) := fun u hu =>
    ((hanatomy.nested_initial hbare hentry m ρ w).run rfl hland (hcancel _ (.inl rfl)) hentered
      hu.inside).2
  have hgoes := fun u hu => (hnested u hu).continues
  refine ⟨?_, ?_, ?_⟩
  · intro i rest hrest
    obtain ⟨x, below, cx, hnow⟩ := hgoes s hs
    rw [hrest] at hnow
    exact hnow.pops_le
  · intro rest hrest
    constructor
    · have hnow := hnested s hs
      rw [hrest] at hnow
      obtain ⟨r, κ, hreturns⟩ := hnow.ret rfl
      have hsuffix : (r :: κ) <:+ s.returns := hreturns ▸ List.suffix_rfl
      obtain ⟨s₁, s₂, hcall, hs₂⟩ := Machine.exists_underWay rfl hs hsuffix
      exact ⟨s₁, s₂, hcall, by rw [hreturns, hs₂]⟩
    · intro s₁ s₂ hmatches
      apply hmatches.ret hland hentered _ hrest
      intro g rest₁ hcall
      obtain ⟨x, below, cx, hthen⟩ := hgoes s₁ hmatches.reached
      rw [hcall] at hthen
      exact hthen.callee
  · intro rest hrest
    have hnow := hnested s hs
    rw [hrest] at hnow
    exact hnow.halt

/-- An entry function with a local that calls another function while an operand is pending. -/
def Tree.pending : Tree :=
  let x : Tree := .ident "x" .absent
  let sum : Tree := .keyword .add x (.keyword .call (.ident "two" .absent) .absent)
  .chain .stmt
    [.keyword .define (.keyword .func (.ident "two" .absent) .absent)
        (.chain .stmt [.keyword .ret .absent (.number (.ofNat 2))]),
      .keyword .define (.keyword .func (.ident "main" .absent) .absent)
        (.chain .stmt [.keyword .assign x (.number (.ofNat 1)), .keyword .ret .absent sum])]

namespace Program

open Instruction

def pending : Program :=
  .ofTree .pending

def pendingTwo : List Item :=
  .label "two" ::
    [.push (.number (.ofNat 2)), .pop (some (.register .ax)), .plain .ret].map .instruction

def pendingMain : List Item :=
  .label "main" ::
    [.push (.number (.ofNat 1)),
      .push (.number (.ofNat 0)), .pop (some (.register .hx)),
      .pop (some (.memory ⟨.bx, 0, some .hx⟩)),
      .push (.number (.ofNat 0)), .pop (some (.register .hx)), .push (.memory ⟨.bx, 0, some .hx⟩),
      .push (.register .bx), .push (.number (.ofNat 1)), .plain .add, .pop (some (.register .bx)),
      .transfer .call "two", .push (.register .ax),
      .push (.register .bx), .push (.number (.ofNat 1)), .plain .sub, .pop (some (.register .bx)),
      .plain .add, .pop (some (.register .ax)), .plain .ret].map .instruction

theorem commands_pending :
    pending.code.commands = (Lowering.preamble 0).commands ++ pendingTwo ++ pendingMain := by
  decide +kernel

open Machine (Step.leads) in
/-- The run up to the `ret` of the called function. -/
theorem pending_reaches_ret {code : List Item} (hmain : Machine.seek entry code = pendingMain)
    (htwo : Machine.seek "two" code = pendingTwo ++ pendingMain)
    (ρ : Register → Machine.integers.Value) (w : World .integers) :
    ∃ s, Machine.integers.Reaches code
        ⟨(Lowering.preamble 0).commands ++ pendingTwo ++ pendingMain, [], ρ, w, []⟩ s ∧
      (∃ rest, s.rest = .instruction (.plain .ret) :: rest) ∧ s.stack.length = 1 ∧
      s.returns.length = 2 := by
  refine Step.leads .push <| Step.leads .push <| Step.leads (.binary rfl rfl) <|
    Step.leads .popRegister <| Step.leads .call ?_
  rw [hmain]
  refine Step.leads .label <| Step.leads .push <| Step.leads .push <| Step.leads .popRegister <|
    Step.leads .popMemory ?_
  refine Step.leads .push <| Step.leads .popRegister <| Step.leads .push <| Step.leads .push <|
    Step.leads .push <| Step.leads (.binary rfl rfl) <| Step.leads .popRegister <|
    Step.leads .call ?_
  rw [htwo]
  exact Step.leads .label <| Step.leads .push <| Step.leads .popRegister
    ⟨_, .refl _, ⟨_, rfl⟩, rfl, rfl⟩

end Program

/-- The called function returns while the operand is pending, one level below the entry function. -/
theorem calls_balanced_in_every_run_pending :
    ∃ (ρ : Register → Machine.integers.Value) (w : World .integers)
      (s s₁ s₂ : Machine.integers.State) (rest : List Item),
      let code := Program.pending.code.commands
      let start := Machine.integers.initial .pending ρ w
      Machine.integers.Reaches code start s ∧ s.rest = .instruction (.plain .ret) :: rest ∧
        s.stack.length = 1 ∧ s.returns.length = 2 ∧
        Machine.integers.Matches code start s₁ s₂ s ∧ s.stack = s₂.stack ∧
        s.registers .bx = s₂.registers .bx := by
  have hmain : Machine.seek Program.entry Program.pending.code.commands = Program.pendingMain := by
    decide +kernel
  have htwo : Machine.seek "two" Program.pending.code.commands =
      Program.pendingTwo ++ Program.pendingMain := by
    decide +kernel
  obtain ⟨s, hs, ⟨rest, hrest⟩, hstack, hdepth⟩ :=
    Program.pending_reaches_ret hmain htwo (fun _ => (0 : Int)) ⟨fun _ => (0 : Int), [], []⟩
  rw [← Program.commands_pending] at hs
  obtain ⟨-, hret, -⟩ := calls_balanced_in_every_run .pending .pending
    (compile_ofTree (by decide +kernel)) (by decide +kernel) (by decide +kernel) .integers _ _
    (fun x _ => Machine.integers_cancels _ x) s hs
  obtain ⟨⟨s₁, s₂, hmatches⟩, hsame⟩ := hret rest hrest
  exact ⟨_, _, s, s₁, s₂, rest, hs, hrest, hstack, hdepth, hmatches, hsame s₁ s₂ hmatches⟩

end StackCompiler
