import StackCompiler.Proofs.Lowering.Statement

/-!
# How frames grow

Lowering adds variables to the end of the current frame and changes nothing else for good, so that a
name found once is found in every later state of the scopes, with the same place. Each new variable
carries the position of the identifier that declares it.
-/
namespace StackCompiler

namespace Frame

theorem declare_eq_ok {f g : Frame} {t : Term} {v : Variable} :
    f.declare t = .ok (v, g) ↔
      ∃ id name left index length, t = .node id (.ident name) left index ∧ f.find? name = none ∧
        lengthOf? index = some length ∧ v = ⟨name, id, f.size, length⟩ ∧
        f.size + v.size ≤ maxSize ∧
        g = { f with declared := f.declared ++ [v], size := f.size + v.size } := by
  cases t with
  | absent => simp [declare, Term.expectIdent, Term.ident?, bind, Except.bind]
  | dangling id => simp [declare, Term.expectIdent, Term.ident?, bind, Except.bind]
  | node id kind left index =>
    cases kind with
    | number n => simp [declare, Term.expectIdent, Term.ident?, bind, Except.bind]
    | keyword tag => simp [declare, Term.expectIdent, Term.ident?, bind, Except.bind]
    | ident name =>
      simp only [declare, Term.expectIdent, Term.ident?, Term.right, bind, Except.bind, pure,
        Except.pure]
      cases hfind : f.find? name with
      | some w => simp [hfind]
      | none =>
        cases hlength : lengthOf? index with
        | none => simp [hlength]
        | some length =>
          constructor
          · intro h
            simp only [Option.isSome_none, Bool.false_eq_true, if_false] at h
            split at h
            · cases h
            · rename_i hsize
              cases h
              exact ⟨id, name, left, index, length, rfl, hfind, hlength, rfl, Nat.not_lt.mp hsize,
                rfl⟩
          · rintro ⟨_, _, _, _, _, ht, _, hlength', rfl, hsize, rfl⟩
            cases ht
            obtain rfl := Option.some.inj (hlength.symm.trans hlength')
            exact if_neg (Nat.not_lt.mpr hsize)

/-- The frame `g` is `f` with variables added. -/
structure Extends (f g : Frame) : Prop where
  base : g.base = f.base
  declared : f.declared <+: g.declared
  size : f.size ≤ g.size
  staged : g.staged = f.staged

theorem Extends.refl (f : Frame) : f.Extends f :=
  ⟨rfl, List.prefix_rfl, Nat.le_refl _, rfl⟩

theorem Extends.trans {f g h : Frame} (hfg : f.Extends g) (hgh : g.Extends h) : f.Extends h :=
  ⟨hgh.base.trans hfg.base, hfg.declared.trans hgh.declared, Nat.le_trans hfg.size hgh.size,
    hgh.staged.trans hfg.staged⟩

theorem extends_of_declare {f g : Frame} {t : Term} {v : Variable}
    (h : f.declare t = .ok (v, g)) : f.Extends g := by
  obtain ⟨id, name, left, index, length, rfl, -, -, rfl, -, rfl⟩ := declare_eq_ok.mp h
  exact ⟨rfl, List.prefix_append _ _, Nat.le_add_right _ _, rfl⟩

theorem find?_of_declare {f g : Frame} {t : Term} {v : Variable}
    (h : f.declare t = .ok (v, g)) : g.find? v.name = some v := by
  obtain ⟨id, name, left, index, length, rfl, hnone, -, rfl, -, rfl⟩ := declare_eq_ok.mp h
  unfold Frame.find? at hnone ⊢
  simp [List.find?_append, hnone]

/-- A declared name stays what it is. -/
theorem Extends.find? {f g : Frame} (h : f.Extends g) {name : String} {v : Variable}
    (hv : f.find? name = some v) : g.find? name = some v := by
  obtain ⟨more, hmore⟩ := h.declared
  unfold Frame.find? at hv ⊢
  rw [← hmore, List.find?_append, hv]
  rfl

end Frame

namespace Scopes

/-- The scopes `s'` are `s` with variables added to the current frame. -/
def Extends (s s' : Scopes) : Prop :=
  ∃ f, s' = s.setCurrent f ∧ s.current.Extends f

theorem Extends.refl (s : Scopes) : s.Extends s :=
  ⟨s.current, s.setCurrent_current.symm, .refl _⟩

theorem Extends.trans {s s' s'' : Scopes} (h : s.Extends s') (h' : s'.Extends s'') :
    s.Extends s'' := by
  obtain ⟨f, rfl, hf⟩ := h
  obtain ⟨g, rfl, hg⟩ := h'
  rw [current_setCurrent] at hg
  exact ⟨g, setCurrent_setCurrent s f g, hf.trans hg⟩

theorem Extends.current {s s' : Scopes} (h : s.Extends s') : s.current.Extends s'.current := by
  obtain ⟨f, rfl, hf⟩ := h
  rwa [current_setCurrent]

/-- Inside a function only its own frame grows. -/
theorem Extends.local {globals start : Frame} {s' : Scopes}
    (h : Extends ⟨globals, some start⟩ s') :
    ∃ frame, s' = ⟨globals, some frame⟩ ∧ start.Extends frame := by
  obtain ⟨f, rfl, hf⟩ := h
  exact ⟨f, rfl, hf⟩

/-- Outside of all functions the frame of the globals grows. -/
theorem Extends.global {start : Frame} {s' : Scopes} (h : Extends ⟨start, none⟩ s') :
    ∃ globals, s' = ⟨globals, none⟩ ∧ start.Extends globals := by
  obtain ⟨f, rfl, hf⟩ := h
  exact ⟨f, rfl, hf⟩

/-- A name that is found keeps its variable and the base of its frame. -/
theorem Extends.find? {s s' : Scopes} (h : s.Extends s') {name : String} {frame : Frame}
    {v : Variable} (hfind : s.find? name = some (frame, v)) :
    ∃ frame', s'.find? name = some (frame', v) ∧ frame'.base = frame.base := by
  obtain ⟨f, rfl, hf⟩ := h
  obtain ⟨globals, locals⟩ := s
  cases locals with
  | none =>
    cases hglobal : globals.find? name with
    | none => simp [Scopes.find?, hglobal] at hfind
    | some w =>
      simp only [Scopes.find?, hglobal, Option.some.injEq, Prod.mk.injEq] at hfind
      obtain ⟨rfl, rfl⟩ := hfind
      have hlater : f.find? name = some w := hf.find? hglobal
      exact ⟨f, by simp [Scopes.find?, setCurrent, hlater], hf.base⟩
  | some g =>
    cases hglobal : globals.find? name with
    | some w =>
      simp only [Scopes.find?, hglobal, Option.some.injEq, Prod.mk.injEq] at hfind
      obtain ⟨rfl, rfl⟩ := hfind
      exact ⟨globals, by simp [Scopes.find?, setCurrent, hglobal], rfl⟩
    | none =>
      simp only [Scopes.find?, hglobal, Option.map_eq_some_iff, Prod.mk.injEq] at hfind
      obtain ⟨w, hw, rfl, rfl⟩ := hfind
      have hlater : f.find? name = some w := hf.find? hw
      exact ⟨f, by simp [Scopes.find?, setCurrent, hglobal, hlater], hf.base⟩

/-- A name that was new is found after its declaration. -/
theorem find?_of_declare {s : Scopes} {id : NodeId} {name : String} {left index : Term}
    {v : Variable} {frame : Frame} (hnone : s.find? name = none)
    (hdeclare : s.current.declare (.node id (.ident name) left index) = .ok (v, frame)) :
    (s.setCurrent frame).find? name = some (frame, v) ∧ v.node = id := by
  have hfind := Frame.find?_of_declare hdeclare
  obtain ⟨_, _, _, _, length, hterm, -, -, rfl, -, -⟩ := Frame.declare_eq_ok.mp hdeclare
  cases hterm
  refine ⟨?_, rfl⟩
  obtain ⟨globals, locals⟩ := s
  cases locals with
  | none => simp [Scopes.find?, setCurrent, hfind]
  | some f =>
    have hglobal : globals.find? name = none := by
      cases h : globals.find? name with
      | none => rfl
      | some w => simp [Scopes.find?, h] at hnone
    simp [Scopes.find?, setCurrent, hglobal, hfind]

/-- All variables in scope. -/
def declared (s : Scopes) : List Variable :=
  s.globals.declared ++ s.locals.elim [] Frame.declared

theorem mem_declared_of_find? {s : Scopes} {name : String} {frame : Frame} {v : Variable}
    (h : s.find? name = some (frame, v)) : v ∈ s.declared := by
  obtain ⟨globals, locals⟩ := s
  unfold Scopes.find? at h
  cases hglobal : globals.find? name with
  | some w =>
    simp only [hglobal, Option.some.injEq, Prod.mk.injEq] at h
    obtain ⟨-, rfl⟩ := h
    exact List.mem_append_left _ (List.mem_of_find?_eq_some hglobal)
  | none =>
    cases locals with
    | none => simp [hglobal] at h
    | some f =>
      simp only [hglobal, Option.map_eq_some_iff, Prod.mk.injEq] at h
      obtain ⟨w, hw, -, rfl⟩ := h
      exact List.mem_append_right _ (List.mem_of_find?_eq_some hw)

theorem mem_declared_setCurrent {s : Scopes} {f : Frame} {v : Variable}
    (h : v ∈ (s.setCurrent f).declared) : v ∈ s.declared ∨ v ∈ f.declared := by
  obtain ⟨globals, locals⟩ := s
  cases locals with
  | none =>
    right
    simpa [declared, setCurrent] using h
  | some g =>
    simp only [declared, setCurrent, Option.elim_some, List.mem_append] at h ⊢
    exact h.imp_left .inl

end Scopes

namespace Lowering

variable {table : FunctionTable}

theorem Targets.extends {s s' : Scopes} {t : Term} {address : Address} {load : List Instruction}
    (h : Targets table s t address load s') : s.Extends s' := by
  cases h with
  | declared => exact .refl s
  | fresh _ hdeclare => exact ⟨_, rfl, Frame.extends_of_declare hdeclare⟩

theorem Compiles.extends {form : Form} {s s' : Scopes} {t : Term} {code : Code}
    (h : Compiles table form s t code s') : s.Extends s' := by
  induction h with
  | assign _ htarget => exact htarget.extends
  | ifThen _ _ _ ih => exact ih
  | ifElse _ _ _ _ _ ihthen ihelse => exact ihthen.trans ihelse
  | whileLoop _ _ _ ih => exact ih
  | ret => exact .refl _
  | display => exact .refl _
  | out => exact .refl _
  | call => exact .refl _
  | nil => exact .refl _
  | cons _ _ ih ihlast => exact ih.trans ihlast

/-- A variable that lowering adds is declared by an identifier of the term. -/
theorem Compiles.node_mem {form : Form} {s s' : Scopes} {t : Term} {code : Code}
    (h : Compiles table form s t code s') {v : Variable} (hv : v ∈ s'.current.declared) :
    v ∈ s.current.declared ∨ v.node ∈ t.ids := by
  induction h with
  | assign _ htarget =>
    cases htarget with
    | declared => exact .inl hv
    | fresh _ hdeclare =>
      obtain ⟨id, name, left, index, length, ht, -, -, rfl, -, rfl⟩ :=
        Frame.declare_eq_ok.mp hdeclare
      cases ht
      rw [Scopes.current_setCurrent, List.mem_append, List.mem_singleton] at hv
      exact hv.imp_right fun h => by simp [h, Term.ids]
  | ifThen _ _ _ ih => exact (ih hv).imp_right fun h => by simp [Term.ids, h]
  | ifElse _ _ _ _ _ ihthen ihelse =>
    rcases ihelse hv with hv | hv
    · exact (ihthen hv).imp_right fun h => by simp [Term.ids, h]
    · exact .inr (by simp [Term.ids, hv])
  | whileLoop _ _ _ ih => exact (ih hv).imp_right fun h => by simp [Term.ids, h]
  | ret => exact .inl hv
  | display => exact .inl hv
  | out => exact .inl hv
  | call => exact .inl hv
  | nil => exact .inl hv
  | cons _ _ ih ihlast =>
    rcases ihlast hv with hv | hv
    · exact (ih hv).imp_right fun h => by simp [Term.ids, h]
    · exact .inr (by simp [Term.ids, hv])

/-- No variable of the scopes is declared inside the term. -/
def Foreign (s : Scopes) (t : Term) : Prop :=
  ∀ v ∈ s.declared, v.node ∉ t.ids

theorem Foreign.mono {s : Scopes} {t u : Term} (h : Foreign s t) (hu : u.ids ⊆ t.ids) :
    Foreign s u :=
  fun v hv hmem => h v hv (hu hmem)

/-- After a statement the variables are still not declared in the terms that follow. -/
theorem Compiles.foreign {form : Form} {s s' : Scopes} {t u : Term} {code : Code}
    (h : Compiles table form s t code s') (hu : Foreign s u) (hdisjoint : t.ids.Disjoint u.ids) :
    Foreign s' u := by
  intro v hv hmem
  obtain ⟨f, hf, -⟩ := h.extends
  have hnode := h.node_mem (v := v)
  rw [hf, Scopes.current_setCurrent] at hnode
  rw [hf] at hv
  rcases Scopes.mem_declared_setCurrent hv with hv | hv
  · exact hu v hv hmem
  · rcases hnode hv with hv | hid
    · refine hu v ?_ hmem
      unfold Scopes.declared
      unfold Scopes.current at hv
      cases hlocals : s.locals <;> simp_all
    · exact hdisjoint hid hmem

end Lowering

end StackCompiler
