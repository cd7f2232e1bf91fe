import Xv6.DirModel
import Xv6.FileRuns
import Xv6.MemModel

/-!
Three models have the file table, each with the fields it needs: `FileModel` with the steps
between which other processes run, `MemModel` and `DirModel` with calls as a whole. To the table
the operations of the last two do what those of the first do.
-/

namespace Xv6.FileLevels

open Function Hoare Params FileModel
open FileRuns (fileclose_eq)
open ProcModel (scan)

variable {n m D : ℕ} {s : St n NFILE D} {f : Fin NFILE}

lemma setFile_view {X : Type} {v : X → File} {t : Fin NFILE → X} {x : X} {z : File}
    (h : s.file = v ∘ t) (hz : v x = z) : (s.setFile f z).file = v ∘ update t f x := by
  rw [comp_update, ← h, hz]
  rfl

section Mem

def memFile (x : MemModel.File) : File := ⟨x.ref, x.type, x.writable, x.pipe⟩

variable {y : MemModel.Sys m} (h : s.file = memFile ∘ y.ftable)
include h

theorem mem_filealloc : wp MemModel.filealloc y fun r y' => r = s.filealloc.map Prod.fst ∧
    (s.filealloc.elim s Prod.snd).file = memFile ∘ y'.ftable := by
  have hscan : (scan fun f => (s.file f).ref = 0) = scan fun f => (y.ftable f).ref = 0 := by
    rw [h]
    rfl
  simp only [MemModel.filealloc, St.filealloc, hscan, wp_bind, wp_get]
  cases hf : scan fun f => (y.ftable f).ref = 0 with
  | none => exact wp_pure.mpr ⟨rfl, h⟩
  | some f =>
    simp only [wp_bind, wp_modify, wp_pure]
    exact ⟨rfl, setFile_view h (by rw [h]; rfl)⟩

theorem mem_filedup (hr : 1 ≤ (y.ftable f).ref) : ∃ ft,
    (s.filedup f).file = memFile ∘ ft ∧
      MemModel.filedup f y = .ok ((), { y with ftable := ft }) := by
  have hf : s.file f = memFile (y.ftable f) := congrFun h f
  have hrun : MemModel.filedup f y = _ := congrFun (if_neg (by omega)) y
  rw [hrun, St.filedup, hf, if_neg (by exact Nat.not_lt.mpr hr)]
  exact ⟨_, setFile_view h rfl, rfl⟩

/-- The pipe that goes with the last reference is the one that `FileModel` closes next. -/
theorem mem_fileclose [VmModel.Layout] (hr : 1 ≤ (y.ftable f).ref) : ∃ ft,
    (s.fileclose f).2.file = memFile ∘ ft ∧
      MemModel.fileclose f y = whenSome (s.fileclose f).1 (fun x => if x.type = .FD_PIPE then
        MemModel.onVm (MemModel.pipeclose x.pipe x.writable) else pure ())
          { y with ftable := ft } := by
  have hf : s.file f = memFile (y.ftable f) := congrFun h f
  have hrun : MemModel.fileclose f y = (if 0 < (y.ftable f).ref - 1 then _ else _ :
    MemModel.K m Unit) y := congrFun (if_neg (by omega)) y
  have hclose := fileclose_eq (s := s) (f := f) (by rw [hf]; exact hr)
  rw [hf] at hclose
  rcases hclose with ⟨h1, he⟩ | ⟨h1, he⟩ <;> simp only [memFile] at h1
  · rw [he, hrun, if_pos (by omega)]
    exact ⟨_, setFile_view h rfl, rfl⟩
  · rw [he, hrun, if_neg (by omega)]
    exact ⟨_, setFile_view h rfl, rfl⟩

end Mem

section Dir

/-- No file of `DirModel` is a pipe. -/
def dirFile (x : DirModel.File) : File := ⟨x.ref, x.type, x.writable, 0⟩

variable {y : DirModel.St} (h : s.file = dirFile ∘ y.ftable)
include h

theorem dir_filealloc : wp DirModel.filealloc y fun r y' => r = s.filealloc.map Prod.fst ∧
    (s.filealloc.elim s Prod.snd).file = dirFile ∘ y'.ftable := by
  have hscan : (scan fun f => (s.file f).ref = 0) =
      (List.finRange NFILE).find? fun f => (y.ftable f).ref = 0 := by
    rw [h]
    rfl
  simp only [DirModel.filealloc, St.filealloc, hscan, wp_bind, wp_get]
  cases hf : (List.finRange NFILE).find? fun f => (y.ftable f).ref = 0 with
  | none => exact wp_pure.mpr ⟨rfl, h⟩
  | some f =>
    simp only [wp_bind, wp_set, wp_pure]
    exact ⟨rfl, setFile_view h (by rw [h]; rfl)⟩

theorem dir_fileclose (hr : 1 ≤ (y.ftable f).ref) : ∃ ft,
    (s.fileclose f).2.file = dirFile ∘ ft ∧
      DirModel.fileclose f y = whenSome (s.fileclose f).1 (fun x =>
        if x.type = .FD_INODE ∨ x.type = .FD_DEVICE then DirModel.iput (y.ftable f).ip
        else pure ()) { y with ftable := ft } := by
  have hf : s.file f = dirFile (y.ftable f) := congrFun h f
  have hrun : DirModel.fileclose f y = (if (y.ftable f).ref = 1 then _ else _ :
    DirModel.M Unit) _ := congrFun (if_neg (by omega)) y
  have hclose := fileclose_eq (s := s) (f := f) (by rw [hf]; exact hr)
  rw [hf] at hclose
  rcases hclose with ⟨h1, he⟩ | ⟨h1, he⟩ <;> simp only [dirFile] at h1
  · rw [he, hrun, if_neg (by omega)]
    exact ⟨_, setFile_view h rfl, rfl⟩
  · rw [he, hrun, if_pos h1]
    refine ⟨update (update y.ftable f _) f { y.ftable f with ref := 0, type := .FD_NONE }, ?_, rfl⟩
    rw [update_idem]
    exact setFile_view h rfl

end Dir

end Xv6.FileLevels
