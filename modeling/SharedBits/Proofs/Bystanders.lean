import SharedBits.Proofs.Solo

/-!
# Bits that no call changes

A bit shares its word with others, and where nothing keeps updates apart, whole words are lost. A bit
that no call changes stays what it is all the same, at every moment of every run and whatever the
strategy: whoever writes its word writes what it has read of this bit, and no thread has ever read it
otherwise (`Run.bit_of_unchanged`).
-/

namespace SharedBits

variable {w : Width}

/-- The cell holds this bit, if it is the cell of the address. -/
def Address.Shows (a : Address) (b : Bool) (cell : Nat) (v : Word w) : Prop :=
  cell = a.word → a.bitIn v = b

/-- The cells hold this bit at the address. -/
def Address.Keeps (a : Address) (b : Bool) (cells : Cells w) : Prop :=
  ∃ v, cells.load? a.word = some v ∧ a.bitIn v = b

section Bystanders

variable {k : Nat} {b : Bool} {cells : Cells w}

/-- The change of another bit of the same word leaves this bit. -/
theorem Address.bitIn_apply_of_ne {i : Nat} (hik : i ≠ k)
    (hword : (locate w i).word = (locate w k).word) (op : BitOp) (v : Word w) :
    (locate w k).bitIn (op.apply v ((locate w i).mask w)) = (locate w k).bitIn v := by
  have hlt := offset_lt w k
  have hoffset : (locate w k).offset ≠ (locate w i).offset := fun heq =>
    hik (locate_eq_iff.1 (congrArg₂ Address.mk hword heq.symm))
  rw [Plain.bitIn_iff _ hlt, Plain.bitIn_iff _ hlt, BitOp.getLsbD_apply, getLsbD_mask]
  simp [hoffset]

theorem Address.Shows.change {i cell : Nat} (hik : i ≠ k) (hcell : cell = (locate w i).word)
    (op : BitOp) {v : Word w} (h : (locate w k).Shows b cell v) :
    (locate w k).Shows b cell (op.apply v ((locate w i).mask w)) := by
  intro hword
  rw [bitIn_apply_of_ne hik (hcell.symm.trans hword)]
  exact h hword

variable {a : Address}

theorem Address.Keeps.shows (h : a.Keeps b cells) {cell : Nat} {v : Word w}
    (hv : cells.load? cell = some v) : a.Shows b cell v := by
  obtain ⟨v', hv', hb⟩ := h
  rintro rfl
  rwa [Option.some.inj (hv.symm.trans hv')]

theorem Address.Keeps.store (h : a.Keeps b cells) {cell : Nat} {v : Word w}
    (hv : a.Shows b cell v) : a.Keeps b (cells.store cell v) := by
  obtain ⟨v', hv', hb⟩ := h
  by_cases hcell : cell = a.word
  · refine ⟨v, ?_, hv hcell⟩
    have hlt : a.word < cells.size := by
      by_contra hge
      rw [Cells.load?_eq_none.2 (Nat.le_of_not_lt hge)] at hv'
      cases hv'
    rw [Cells.load?_store, if_pos ⟨hcell, hlt⟩]
  · refine ⟨v', ?_, hb⟩
    rw [Cells.load?_store, if_neg fun heq => hcell heq.1, hv']

/-- What a call does that does not change the bit leaves it. -/
theorem Active.Knows.keeps {capacity : Nat} {a a' : Active w Call Reply} {e : Event w Reply}
    {store : Store w} (h : a.Knows ((Address.locate w k).Shows b) capacity) (hp : a.Passes e a')
    (hf : e.Fits store) (hcall : ∀ op, a.call.change capacity ≠ some (op, k))
    (hkeeps : (Address.locate w k).Keeps b store.cells) :
    (Address.locate w k).Keeps b (e.after store).cells := by
  obtain ⟨known, hmakes, hknown⟩ := h
  cases hp with
  | stored old hr =>
    rw [hr] at hmakes
    obtain ⟨⟨op, i, v, hchange, hcell, hk, rfl⟩, -⟩ := hmakes
    have hik : i ≠ k := fun heq => hcall op (heq ▸ hchange)
    exact hkeeps.store ((hknown (by simp [hchange]) _ _ hk).change hik hcell op)
  | @committed cell transform next v hr hs =>
    rw [hr] at hmakes
    obtain ⟨⟨op, i, hchange, hcell, htransform⟩, -⟩ := hmakes
    have hik : i ≠ k := fun heq => hcall op (heq ▸ hchange)
    rw [htransform]
    exact hkeeps.store ((hkeeps.shows hf).change hik hcell op)
  | _ => exact hkeeps

variable {f : Fragile} {s : Strategy} {stops : Ending Reply → Bool} {calls : List (List Call)}
  {labels : List (Label w Call Reply)} {m : Machine w Call Reply}

theorem Run.keeps_of_unchanged (hkeeps : (Address.locate w k).Keeps b (f.bitSet s w).store.cells)
    (hnone : ∀ j op, .update op k ∉ calls.getD j [])
    (h : Run ((f.bitSet s w).callers stops) (.start (f.bitSet s w).store calls) labels m) :
    (Address.locate w k).Keeps b m.store.cells := by
  refine (h.of_moves (fun _ m => (Address.locate w k).Keeps b m.store.cells
    ∧ ∀ (i : Nat) (t : Thread w Call Reply) (a : Active w Call Reply), m.threads[i]? = some t →
      t.current = some a → a.Knows ((Address.locate w k).Shows b) f.plain.capacity)
    ⟨hkeeps, ?_⟩ ?_).1
  · intro i t a ht hc
    cases (Machine.current_start (List.mem_of_getElem? ht)).symm.trans hc
  · rintro labels m mishap i t call e store' t' hr ⟨hkeeps, hknows⟩ ht hm
    have hothers : (∀ a, t'.current = some a →
        a.Knows ((Address.locate w k).Shows b) f.plain.capacity) →
        ∀ (j : Nat) (u : Thread w Call Reply) (a : Active w Call Reply),
          (m.threads.set i t')[j]? = some u → u.current = some a →
          a.Knows ((Address.locate w k).Shows b) f.plain.capacity := by
      intro hself j u a hu ha
      rcases (getElem?_set_thread ht).1 hu with ⟨rfl, rfl⟩ | ⟨-, hu⟩
      · exact hself a ha
      · exact hknows j u a hu ha
    cases hm with
    | begins =>
      refine ⟨hkeeps, hothers fun a ha => ?_⟩
      cases ha
      exact System.opening_knows rfl _
    | @passes a a' _ hc hp hf =>
      have hcall : ∀ op, a.call.change f.plain.capacity ≠ some (op, k) := fun op hchange =>
        hnone i op ((Call.change_eq_some hchange).1 ▸ hr.call_mem ht hc)
      refine ⟨(hknows i t a ht hc).keeps hp hf hcall hkeeps, hothers fun a'' ha => ?_⟩
      cases ha
      refine (hknows i t a ht hc).passes hp (fun cell next v _ he _ => ?_) fun _ _ _ _ hv => hv
      subst he
      exact hkeeps.shows hf
    | returns => exact ⟨hkeeps, hothers fun a ha => by cases ha⟩
    | panics =>
      refine ⟨?_, hothers fun a ha => by cases ha⟩
      rwa [m.store.cells_abandon]

/-- A bit that no call changes is the same at every moment. -/
theorem Run.bit_of_unchanged (hk : k < f.plain.capacity)
    (hnone : ∀ j op, .update op k ∉ calls.getD j [])
    (h : Run ((f.bitSet s w).callers stops) (.start (f.bitSet s w).store calls) labels m) :
    ∃ v, m.store.cells.load? (Address.locate w k).word = some v
      ∧ (Address.locate w k).bitIn v = f.plain.bit k :=
  h.keeps_of_unchanged ⟨_, f.plain.load?_locate hk, f.plain.bitIn_word k⟩ hnone

end Bystanders

end SharedBits
