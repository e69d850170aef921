import Mathlib

/-!
# Block devices with atomic block writes

A disk is a map from block addresses to block contents. A program's disk traffic is a list of
steps (`Op`), each of which reads the disk and then writes one block; each block write is atomic
and the writes reach the disk in program order, so a crash leaves the disk as it is after some
prefix of the steps: `runOps d (ops.take k)`.

* `writeAll_of_forall_ne` : blocks that no write names keep their contents;
* `writeAll_map_fun` : writes whose value is a function of the address;
* `writeAll_of_mem_nodup` : with no block named twice, each block ends with its write's contents;
* `writeAll_congr` : the result depends on the starting disk only at blocks no write names;
* `writeAll_writeAll_take` : replaying a whole list of fixed writes after any prefix of it gives
  what the whole list gives from the start (redo is idempotent);
* `runOps_eq_writeAll` : steps that read only a region they never write act as the fixed writes
  they compute on the starting disk.
-/

namespace BlockDev

variable {β α : Type} [DecidableEq β]

/-- One atomic block write: block `addr` gets the contents `val`. -/
structure Write (β α : Type) where
  addr : β
  val : α

/-- The disk after one block write. -/
def Write.apply (d : β → α) (w : Write β α) : β → α := Function.update d w.addr w.val

/-- The disk after a list of block writes, in order. -/
def writeAll (d : β → α) (ws : List (Write β α)) : β → α := ws.foldl Write.apply d

/-- One step of a program's disk traffic: it reads the disk, then writes one block. -/
abbrev Op (β α : Type) := (β → α) → Write β α

/-- The disk after running the steps in order. -/
def runOps : (β → α) → List (Op β α) → β → α
  | d, [] => d
  | d, op :: ops => runOps (Write.apply d (op d)) ops

@[simp] theorem writeAll_nil (d : β → α) : writeAll d [] = d := rfl

@[simp] theorem writeAll_cons (d : β → α) (w : Write β α) (ws : List (Write β α)) :
    writeAll d (w :: ws) = writeAll (w.apply d) ws := rfl

theorem writeAll_append (d : β → α) (ws ws' : List (Write β α)) :
    writeAll d (ws ++ ws') = writeAll (writeAll d ws) ws' := List.foldl_append

@[simp] theorem runOps_nil (d : β → α) : runOps d [] = d := rfl

@[simp] theorem runOps_cons (d : β → α) (op : Op β α) (ops : List (Op β α)) :
    runOps d (op :: ops) = runOps ((op d).apply d) ops := rfl

theorem runOps_append (d : β → α) (ops ops' : List (Op β α)) :
    runOps d (ops ++ ops') = runOps (runOps d ops) ops' := by
  induction ops generalizing d with
  | nil => rfl
  | cons op ops ih => exact ih _

theorem Write.apply_of_ne {w : Write β α} {b : β} (h : w.addr ≠ b) (d : β → α) : w.apply d b = d b :=
  Function.update_of_ne (Ne.symm h) _ _

@[simp] theorem Write.apply_addr (w : Write β α) (d : β → α) : w.apply d w.addr = w.val :=
  Function.update_self _ _ _

/-- A block that no write names keeps its contents. -/
theorem writeAll_of_forall_ne {b : β} : ∀ (ws : List (Write β α)) (d : β → α),
    (∀ w ∈ ws, w.addr ≠ b) → writeAll d ws b = d b
  | [], _, _ => rfl
  | w :: ws, d, h => by
    rw [writeAll_cons, writeAll_of_forall_ne ws _ (fun w' hw' => h w' (List.mem_cons_of_mem _ hw'))]
    exact Write.apply_of_ne (h w List.mem_cons_self) d

/-- Writes whose value is a function `f` of the block written. -/
theorem writeAll_map_fun (f : β → α) (b : β) : ∀ (as : List β) (d : β → α),
    writeAll d (as.map fun a => ⟨a, f a⟩) b = if b ∈ as then f b else d b
  | [], _ => by simp
  | a :: as, d => by
    rw [List.map_cons, writeAll_cons, writeAll_map_fun f b as]
    by_cases hb : b ∈ as
    · simp [hb]
    · by_cases hab : b = a
      · subst hab; simp [Write.apply]
      · simp only [hb, List.mem_cons, hab, false_or, if_false]
        exact Write.apply_of_ne (Ne.symm hab) d

/-- When no two writes name the same block, each block written ends with its write's contents. -/
theorem writeAll_of_mem_nodup : ∀ (ws : List (Write β α)) (d : β → α) {w : Write β α},
    (ws.map Write.addr).Nodup → w ∈ ws → writeAll d ws w.addr = w.val
  | [], _, _, _, hw => absurd hw List.not_mem_nil
  | w' :: ws, d, w, hnd, hw => by
    rw [List.map_cons, List.nodup_cons] at hnd
    rw [writeAll_cons]
    rcases List.mem_cons.mp hw with rfl | hw
    · rw [writeAll_of_forall_ne ws _ (fun x hx he => hnd.1 (by rw [← he]; exact List.mem_map_of_mem hx))]
      exact Write.apply_addr _ d
    · exact writeAll_of_mem_nodup ws _ hnd.2 hw

/-- The result depends on the starting disk only at the blocks that no write names. -/
theorem writeAll_congr : ∀ (ws : List (Write β α)) {d d' : β → α},
    (∀ b, (∀ w ∈ ws, w.addr ≠ b) → d b = d' b) → writeAll d ws = writeAll d' ws
  | [], _, _, h => funext fun b => h b (by simp)
  | w :: ws, d, d', h => by
    rw [writeAll_cons, writeAll_cons]
    apply writeAll_congr ws
    intro b hb
    by_cases hwb : w.addr = b
    · subst hwb; simp
    · rw [Write.apply_of_ne hwb, Write.apply_of_ne hwb]
      exact h b (fun w' hw' => by
        rcases List.mem_cons.mp hw' with rfl | hw'
        · exact hwb
        · exact hb w' hw')

/-- Redo is idempotent: after a crash part way through a list of fixed writes, writing the whole
list again gives what the whole list gives from the start. -/
theorem writeAll_writeAll_take (d : β → α) (ws : List (Write β α)) (j : Nat) :
    writeAll (writeAll d (ws.take j)) ws = writeAll d ws := by
  apply writeAll_congr
  intro b hb
  exact writeAll_of_forall_ne _ d (fun w hw => hb w (List.mem_of_mem_take hw))

/-- A step reads only the region `R`. -/
def ReadsOnly (R : β → Prop) (op : Op β α) : Prop :=
  ∀ d d' : β → α, (∀ r, R r → d r = d' r) → op d = op d'

/-- A step writes outside the region `R`. -/
def WritesOutside (R : β → Prop) (op : Op β α) : Prop :=
  ∀ d : β → α, ¬ R (op d).addr

/-- Steps that read only a region they never write act as the fixed writes they compute on the
starting disk. -/
theorem runOps_eq_writeAll (R : β → Prop) : ∀ (ops : List (Op β α)) (d : β → α),
    (∀ op ∈ ops, ReadsOnly R op ∧ WritesOutside R op) → runOps d ops = writeAll d (ops.map (· d))
  | [], _, _ => rfl
  | op :: ops, d, h => by
    have hop := h op List.mem_cons_self
    have hrest : ∀ op' ∈ ops, ReadsOnly R op' ∧ WritesOutside R op' :=
      fun op' h' => h op' (List.mem_cons_of_mem _ h')
    -- the first write leaves `R` alone, so every later step computes the same write
    have hR : ∀ r, R r → (op d).apply d r = d r := fun r hr =>
      Write.apply_of_ne (fun he => hop.2 d (he ▸ hr)) d
    have hsame : ops.map (· ((op d).apply d)) = ops.map (· d) :=
      List.map_congr_left fun op' h' => (hrest op' h').1 _ _ hR
    rw [runOps_cons, runOps_eq_writeAll R ops _ hrest, hsame, List.map_cons, writeAll_cons]

/-- Fixed writes, as steps that read nothing. -/
def Write.op (w : Write β α) : Op β α := fun _ => w

theorem runOps_map_op (d : β → α) (ws : List (Write β α)) : runOps d (ws.map Write.op) = writeAll d ws := by
  induction ws generalizing d with
  | nil => rfl
  | cons w ws ih => exact ih _

end BlockDev
