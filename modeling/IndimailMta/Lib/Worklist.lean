import Mathlib.Data.List.Basic
import Mathlib.Data.Prod.Lex
import Mathlib.Logic.Relation

/-!
# Work that is found while it is done

Items wait on a stack. The top one is skipped if it is done; else it is done, and what it leads to is
pushed. A run that empties the stack has done exactly what can be reached without an item that was
done before, each item once, and where all items are of a finite set every run empties the stack.
-/

namespace IndimailMta.Lib.Worklist

variable {α : Type*}

/-- The items that are done, newest first, and the stack. -/
structure State (α : Type*) where
  done : List α
  todo : List α

inductive Step (next : α → List α) : State α → State α → Prop
  | skip {done todo : List α} {x : α} (hx : x ∈ done) : Step next ⟨done, x :: todo⟩ ⟨done, todo⟩
  | visit {done todo : List α} {x : α} (hx : x ∉ done) :
      Step next ⟨done, x :: todo⟩ ⟨x :: done, (next x).reverse ++ todo⟩

/-- An item can be reached from others by a path that has none of `avoid`. -/
def Reach (next : α → List α) (avoid : α → Prop) (start : List α) (x : α) : Prop :=
  ∃ s ∈ start, ¬ avoid s ∧ Relation.ReflTransGen (fun a b => b ∈ next a ∧ ¬ avoid b) s x

variable {next : α → List α} {avoid : α → Prop} {start : List α}

theorem Reach.base {s : α} (hs : s ∈ start) (ha : ¬ avoid s) : Reach next avoid start s :=
  ⟨s, hs, ha, .refl⟩

theorem Reach.step {x y : α} (hx : Reach next avoid start x) (hy : y ∈ next x) (ha : ¬ avoid y) :
    Reach next avoid start y := by
  obtain ⟨s, hs, hsa, hpath⟩ := hx
  exact ⟨s, hs, hsa, hpath.tail ⟨hy, ha⟩⟩

/-- What avoids more is reached if less is to be avoided. -/
theorem Reach.mono {avoid' : α → Prop} {x : α} (hx : Reach next avoid start x)
    (himp : ∀ y, avoid' y → avoid y) : Reach next avoid' start x := by
  obtain ⟨s, hs, hsa, hpath⟩ := hx
  refine ⟨s, hs, fun h => hsa (himp s h), ?_⟩
  exact Relation.ReflTransGen.mono (fun a b h => ⟨h.1, fun hb => h.2 (himp b hb)⟩) _ _ hpath

/-- A set that has what is not to be avoided of the start, and of what its items lead to, has
everything that is reached. -/
theorem Reach.induct {p : α → Prop} {x : α} (hx : Reach next avoid start x)
    (hbase : ∀ s ∈ start, ¬ avoid s → p s) (hstep : ∀ a b, p a → b ∈ next a → ¬ avoid b → p b) :
    p x := by
  obtain ⟨s, hs, hsa, hpath⟩ := hx
  induction hpath with
  | refl => exact hbase s hs hsa
  | tail _ hab ih => exact hstep _ _ ih hab.1 hab.2

/-- What holds between the first state of a run and a later one. -/
structure Progress (next : α → List α) (d₀ t₀ : List α) (s : State α) : Prop where
  split : ∃ new, s.done = new ++ d₀ ∧ new.Nodup ∧ (∀ x ∈ new, x ∉ d₀) ∧
    (∀ x ∈ new, Reach next (· ∈ d₀) t₀ x) ∧
    ∀ x ∈ new, ∀ y ∈ next x, y ∈ s.done ∨ y ∈ s.todo
  pending : ∀ x ∈ s.todo, x ∈ d₀ ∨ Reach next (· ∈ d₀) t₀ x
  started : ∀ x ∈ t₀, x ∈ s.done ∨ x ∈ s.todo

theorem progress_start (d₀ t₀ : List α) : Progress next d₀ t₀ ⟨d₀, t₀⟩ where
  split := ⟨[], rfl, List.nodup_nil, by simp, by simp, by simp⟩
  pending x hx := by
    by_cases hd : x ∈ d₀
    · exact .inl hd
    · exact .inr (.base hx hd)
  started _ hx := .inr hx

/-- A step keeps it. -/
theorem progress_step {d₀ t₀ : List α} {s s' : State α} (hs : Progress next d₀ t₀ s)
    (hstep : Step next s s') : Progress next d₀ t₀ s' := by
  obtain ⟨⟨new, hdone, hnodup, hfresh, hreach, hclosed⟩, hpending, hstarted⟩ := hs
  cases hstep with
  | @skip done todo x hx =>
      have hmove : ∀ y, y ∈ done ∨ y ∈ x :: todo → y ∈ done ∨ y ∈ todo := by
        rintro y (hy | hy)
        · exact .inl hy
        · rcases List.mem_cons.mp hy with rfl | hy
          · exact .inl hx
          · exact .inr hy
      refine ⟨⟨new, hdone, hnodup, hfresh, hreach, fun y hy z hz => hmove z (hclosed y hy z hz)⟩,
        fun y hy => hpending y (List.mem_cons_of_mem _ hy), fun y hy => hmove y (hstarted y hy)⟩
  | @visit done todo x hx =>
      obtain rfl : done = new ++ d₀ := hdone
      have hxd : x ∉ d₀ := fun h => hx (List.mem_append_right _ h)
      have hxn : x ∉ new := fun h => hx (List.mem_append_left _ h)
      have hxr : Reach next (· ∈ d₀) t₀ x :=
        (hpending x List.mem_cons_self).resolve_left hxd
      have hmove : ∀ y, y ∈ new ++ d₀ ∨ y ∈ x :: todo →
          y ∈ x :: (new ++ d₀) ∨ y ∈ (next x).reverse ++ todo := by
        rintro y (hy | hy)
        · exact .inl (List.mem_cons_of_mem _ hy)
        · rcases List.mem_cons.mp hy with rfl | hy
          · exact .inl List.mem_cons_self
          · exact .inr (List.mem_append_right _ hy)
      refine ⟨⟨x :: new, rfl, List.nodup_cons.mpr ⟨hxn, hnodup⟩, ?_, ?_, ?_⟩, ?_,
        fun y hy => hmove y (hstarted y hy)⟩
      · exact List.forall_mem_cons.mpr ⟨hxd, hfresh⟩
      · exact List.forall_mem_cons.mpr ⟨hxr, hreach⟩
      · refine List.forall_mem_cons.mpr ⟨fun y hy => .inr ?_, fun y hy z hz => ?_⟩
        · exact List.mem_append_left _ (List.mem_reverse.mpr hy)
        · exact hmove z (hclosed y hy z hz)
      · intro y hy
        rcases List.mem_append.mp hy with hy | hy
        · by_cases hyd : y ∈ d₀
          · exact .inl hyd
          · exact .inr (hxr.step (List.mem_reverse.mp hy) hyd)
        · exact hpending y (List.mem_cons_of_mem _ hy)

/-- **What a run does** that empties the stack: the items that can be reached, each once. -/
theorem done_iff_reach {d₀ t₀ done : List α}
    (hrun : Relation.ReflTransGen (Step next) ⟨d₀, t₀⟩ ⟨done, []⟩) :
    ∃ new, done = new ++ d₀ ∧ new.Nodup ∧ ∀ x, x ∈ new ↔ Reach next (· ∈ d₀) t₀ x := by
  have hs : Progress next d₀ t₀ ⟨done, []⟩ := by
    generalize hfinal : (⟨done, []⟩ : State α) = s at hrun
    clear hfinal
    induction hrun with
    | refl => exact progress_start d₀ t₀
    | tail _ hstep ih => exact progress_step ih hstep
  obtain ⟨⟨new, hdone, hnodup, -, hreach, hclosed⟩, -, hstarted⟩ := hs
  have hin : ∀ y, y ∈ done ∨ y ∈ ([] : List α) → y ∉ d₀ → y ∈ new := by
    rintro y (hy | hy) hyd
    · rw [show done = new ++ d₀ from hdone] at hy
      exact (List.mem_append.mp hy).resolve_right hyd
    · cases hy
  refine ⟨new, hdone, hnodup, fun x => ⟨hreach x, fun hx => ?_⟩⟩
  refine hx.induct (fun s hs hsa => hin s (hstarted s hs) hsa) fun a b ha hb hba => ?_
  exact hin b (hclosed a ha b hb) hba

/-- **Every run comes to an end**, where the items are of a finite set that has what they lead to. -/
theorem acc_step [DecidableEq α] {U : List α} (hnext : ∀ x ∈ U, ∀ y ∈ next x, y ∈ U) (s : State α)
    (htodo : ∀ x ∈ s.todo, x ∈ U) : Acc (fun a b => Step next b a) s := by
  -- first what is left of the set, then the height of the stack
  induction hn : (U.filter fun x => decide (x ∉ s.done)).length using Nat.strong_induction_on
    generalizing s with
  | _ n ih =>
      obtain ⟨done, todo⟩ := s
      induction todo with
      | nil => exact ⟨_, fun s' h => by cases h⟩
      | cons x todo ihtodo =>
          have hxU := htodo x List.mem_cons_self
          have htail := fun y hy => htodo y (List.mem_cons_of_mem x hy)
          refine ⟨_, fun s' h => ?_⟩
          cases h with
          | skip hx => exact ihtodo htail hn
          | visit hx =>
              refine ih _ ?_ _ ?_ rfl
              · have hfilter : U.filter (fun y => decide (y ∉ x :: done)) =
                    (U.filter fun y => decide (y ∉ done)).filter fun y => decide (y ≠ x) := by
                  rw [List.filter_filter]
                  refine List.filter_congr fun y _ => ?_
                  simp only [List.mem_cons, not_or, Bool.decide_and]
                rw [← hn, hfilter, List.length_filter_lt_length_iff_exists]
                exact ⟨x, List.mem_filter.mpr ⟨hxU, decide_eq_true hx⟩, by simp⟩
              · intro y hy
                rcases List.mem_append.mp hy with hy | hy
                · exact hnext x hxU y (List.mem_reverse.mp hy)
                · exact htail y hy

end IndimailMta.Lib.Worklist
