import UserOS.Rufs.Refinement

/-!
# What earlier requests leave

Requests act on a tree of files (`runs_refine`), so that what a history of them leaves is read off
the tree.

* `Meaning.elsewhere`: a request changes nothing outside of its path.
* `read_last_written`: a read gives what was last written, whatever was asked for in between.
* `removal_undoes`: removing a directory undoes all that was done in it since it was made.
-/

namespace UserOS.Rufs

open Lib

variable {fs fs' fs₀ fs₁ fs₂ fs₃ : Fs} {env env₁ env₂ : Env} {q r : Request} {a b : Reply}
  {t t' : FileTree CString File} {cs ds : List CString} {path path' : CString}
  {buffer caller : Bytes} {m n o offset W : ℕ}

/-! ## Outside of the path -/

/-- **A request changes nothing outside of its path.** -/
theorem Meaning.elsewhere (h : Meaning t (q, a) t') (hds : ¬components q.path <+: ds) :
    t' ds = t ds := by
  obtain ⟨-, hs⟩ := h
  have hne : ds ≠ components q.path := by
    rintro rfl
    exact hds List.prefix_rfl
  dsimp only at hs
  cases hs with
  | made | written => exact FileTree.set_of_ne hne
  | removed => exact FileTree.prune_apart hds
  | _ => rfl

/-- Requests to paths that go on from `cs` change nothing outside of it. -/
theorem Meaning.run_elsewhere {es : List (Request × Reply)} (hrun : Run Meaning t es t')
    (hbelow : ∀ e ∈ es, cs <+: components e.1.path) (hds : ¬cs <+: ds) : t' ds = t ds := by
  induction hrun with
  | nil => rfl
  | @snoc es t₁ t₂ e _ hstep ih =>
    have hpre := hbelow e (by simp)
    have hlast : t₂ ds = t₁ ds := hstep.elsewhere fun h => hds (hpre.trans h)
    rw [hlast, ih fun e he => hbelow e (by simp [he])]

/-! ## The size of files -/

/-- The number of bytes that a request asks to write. -/
def Request.amount : Request → ℕ
  | write _ _ size _ => size
  | _ => 0

/-- The number of bytes that some requests ask to write. -/
def written (es : List (Request × Reply)) : ℕ := (es.map fun e => e.1.amount).sum

theorem written_snoc {es : List (Request × Reply)} {e : Request × Reply} :
    written (es ++ [e]) = written es + e.1.amount := by
  simp [written]

/-- No file is larger than `W`. -/
def FilesWithin (t : FileTree CString File) (W : ℕ) : Prop :=
  ∀ cs f, t cs = some (.file f) → f.size ≤ W

theorem Meaning.filesWithin (h : FilesWithin t W) (hs : Meaning t (q, a) t') :
    FilesWithin t' (W + q.amount) := by
  obtain ⟨-, hs⟩ := hs
  intro cs f hf
  dsimp only at hs
  cases hs with
  | @made q x hmakes =>
    by_cases heq : cs = components q.path
    · rw [heq, FileTree.set_self, Option.some.injEq] at hf
      subst hf
      cases q <;> cases hmakes
      exact Nat.zero_le _
    · rw [FileTree.set_of_ne heq] at hf
      exact (h cs f hf).trans (Nat.le_add_right ..)
  | @removed q =>
    by_cases hpre : components q.path <+: cs
    · rw [FileTree.prune_below hpre] at hf
      cases hf
    · rw [FileTree.prune_apart hpre] at hf
      exact (h cs f hf).trans (Nat.le_add_right ..)
  | @written path buffer n offset g hg =>
    by_cases heq : cs = components path
    · rw [heq, FileTree.set_self, Option.some.injEq, Node.file.injEq] at hf
      subst hf
      exact (Nat.mod_le ..).trans (Nat.add_le_add_right (h _ g hg) n)
    · rw [FileTree.set_of_ne heq] at hf
      exact (h cs f hf).trans (Nat.le_add_right ..)
  | _ => exact (h cs f hf).trans (Nat.le_add_right ..)

theorem FilesWithin.run {es : List (Request × Reply)} (h : FilesWithin t W)
    (hrun : Run Meaning t es t') : FilesWithin t' (W + written es) := by
  induction hrun with
  | nil => exact h
  | snoc _ hstep ih =>
    rw [written_snoc, ← Nat.add_assoc]
    exact hstep.filesWithin ih

/-! ## Reading what was written -/

/-- The request leaves the range of the file alone: it removes neither the file nor a directory that
the file is in, and writes to other files or other bytes. -/
def Request.Spares (cs : List CString) (n offset : ℕ) : Request → Prop
  | rmdir path | unlink path => ¬components path <+: cs
  | write path _ size o =>
    components path = cs → ∀ j < size, o + j < offset ∨ offset + n ≤ o + j
  | _ => True

instance {q : Request} : Decidable (q.Spares cs n offset) :=
  match q with
  | .rmdir path | .unlink path => inferInstanceAs (Decidable (¬components path <+: cs))
  | .write path _ size o => inferInstanceAs (Decidable
      (components path = cs → ∀ j < size, o + j < offset ∨ offset + n ≤ o + j))
  | .getattr _ _ | .opendir _ | .openFile _ | .readdir _ _ | .mkdir _ | .create _ _
  | .read _ _ _ _ => .isTrue trivial

/-- The file is there and has the first `n` bytes of the buffer in the range. -/
def HasBytes (t : FileTree CString File) (cs : List CString) (buffer : Bytes) (n offset : ℕ) :
    Prop :=
  ∃ f, t cs = some (.file f) ∧ offset + n ≤ f.size ∧ ∀ j < n, f.byte (offset + j) = some (buffer j)

theorem HasBytes.step (h : HasBytes t cs buffer n offset) (hw : FilesWithin t W)
    (hsmall : W + q.amount < 2 ^ 32) (hspares : q.Spares cs n offset) (hs : Meaning t (q, a) t') :
    HasBytes t' cs buffer n offset := by
  obtain ⟨f, hf, hsize, hbyte⟩ := h
  obtain ⟨-, hs⟩ := hs
  dsimp only at hs
  cases hs with
  | @made q x _ _ hnone =>
    refine ⟨f, ?_, hsize, hbyte⟩
    rw [FileTree.set_of_ne, hf]
    rintro rfl
    rw [hf] at hnone
    cases hnone
  | @removed q hremoves =>
    have hpre : ¬components q.path <+: cs := by
      cases q with
      | rmdir path | unlink path => exact hspares
      | _ => exact hremoves.elim
    exact ⟨f, (FileTree.prune_apart hpre).trans hf, hsize, hbyte⟩
  | @written path buffer' size o g hg =>
    by_cases heq : cs = components path
    · subst heq
      rw [hg, Option.some.injEq, Node.file.injEq] at hf
      subst hf
      have hle := hw _ g hg
      refine ⟨_, FileTree.set_self, ?_, fun j hj => ?_⟩
      · show offset + n ≤ (g.size + size) % 2 ^ 32
        rw [Nat.mod_eq_of_lt (lt_of_le_of_lt (Nat.add_le_add_right hle size) hsmall)]
        omega
      · refine storePage_outside ?_ (hbyte j hj)
        -- A byte of both ranges would be at `offset + j - o` in the new one.
        have hj' := hspares rfl (offset + j - o)
        omega
    · exact ⟨f, (FileTree.set_of_ne heq).trans hf, hsize, hbyte⟩
  | _ => exact ⟨f, hf, hsize, hbyte⟩

theorem HasBytes.run {es : List (Request × Reply)} (h : HasBytes t cs buffer n offset)
    (hw : FilesWithin t W) (hrun : Run Meaning t es t') (hsmall : W + written es < 2 ^ 32)
    (hspares : ∀ e ∈ es, e.1.Spares cs n offset) : HasBytes t' cs buffer n offset := by
  induction hrun with
  | nil => exact h
  | @snoc es t₁ t₂ e hrun hstep ih =>
    rw [written_snoc, ← Nat.add_assoc] at hsmall
    have hbefore : HasBytes t₁ cs buffer n offset :=
      ih (by omega) fun e he => hspares e (by simp [he])
    exact hbefore.step (hw.run hrun) hsmall (hspares e (by simp)) hstep

/-- A write that reports its full size. -/
theorem Meaning.hasBytes (hw : FilesWithin t W) (hsmall : W + n < 2 ^ 32) (hn : 0 < n)
    (hs : Meaning t (.write path buffer n offset, a) t') (ha : a.result = n) :
    HasBytes t' (components path) buffer n offset := by
  obtain ⟨⟨-, -, -, hpage⟩, hs⟩ := hs
  dsimp only at hs
  cases hs with
  | @written _ _ _ _ f hf hle =>
    refine ⟨_, FileTree.set_self, ?_, fun j hj => storePage_inside hpage hj⟩
    show offset + n ≤ (f.size + n) % 2 ^ 32
    rw [Nat.mod_eq_of_lt (lt_of_le_of_lt (Nat.add_le_add_right (hw _ f hf) n) hsmall)]
    exact Nat.add_le_add_right hle n
  | missing =>
    have hneg : -enoent = (n : ℤ) := ha
    unfold enoent at hneg
    omega
  | taken hmakes | noSpace hmakes => exact absurd rfl hmakes
  | made hmakes => cases hmakes
  | removed hremoves => exact hremoves.elim
  | writtenPast =>
    have hzero : (0 : ℤ) = n := ha
    omega
  | noBlock =>
    have hval : (if offset / blockSize ≤ 15 then 0 else -enospc) = (n : ℤ) := ha
    unfold enospc at hval
    split at hval <;> omega

/-- A read from a range of a file gives the bytes of the file. -/
theorem Meaning.reads (h : HasBytes t cs buffer n offset) (hpath : components path = cs)
    (hle : offset ≤ o) (hin : o + m ≤ offset + n)
    (hs : Meaning t (.read path caller m o, a) t') :
    a.result = m ∧ ∃ buf, a.data = .bytes buf ∧ (∀ j < m, buf j = buffer (o - offset + j)) ∧
      ∀ j, m ≤ j → buf j = caller j := by
  obtain ⟨f, hf, hsize, hbyte⟩ := h
  have hget : ∀ j < m, f.byte (o + j) = some (buffer (o - offset + j)) := fun j hj => by
    rw [← hbyte _ (by omega)]
    congr 1
    omega
  have hhas : f.Has m o := by
    refine ⟨by omega, or_iff_not_imp_left.2 fun hm => ?_⟩
    have hfirst := hget 0 (by omega)
    rw [Nat.add_zero] at hfirst
    rw [hfirst]
    exact Option.some_ne_none _
  obtain ⟨-, hs⟩ := hs
  subst hpath
  dsimp only at hs
  cases hs with
  | missing hnone =>
    have hnone : t (components path) = none := hnone
    rw [hf] at hnone
    cases hnone
  | taken hmakes | noSpace hmakes => exact absurd rfl hmakes
  | made hmakes => cases hmakes
  | removed hremoves => exact hremoves.elim
  | @read _ _ buf _ _ g hg _ hbuf hrest =>
    rw [hf, Option.some.injEq, Node.file.injEq] at hg
    subst hg
    refine ⟨rfl, buf, rfl, fun j hj => ?_, hrest⟩
    exact Option.some.inj ((hbuf j hj).symm.trans (hget j hj))
  | readNothing hg hnot =>
    rw [hf, Option.some.injEq, Node.file.injEq] at hg
    subst hg
    exact absurd hhas hnot

/-- **A read gives what was last written.** A write reports that it wrote the whole buffer. After
any requests that neither remove the file nor write to the same bytes of it, a read of any part of
the range gives the bytes of the buffer. Up to then, fewer than `2 ^ 32` bytes were to be
written. -/
theorem read_last_written {es es' : List (Env × Request × Reply)}
    (hrun : Run Serving (rufsMkfs env Bytes.zero).2
      (es ++ (env₁, .write path buffer n offset, a) :: es') fs)
    (hn : 0 < n) (ha : a.result = n)
    (hsmall : written (es.map Prod.snd) + n + written (es'.map Prod.snd) < 2 ^ 32)
    (hspares : ∀ e ∈ es', e.2.1.Spares (components path) n offset)
    (hread : Serving fs (env₂, .read path' caller m o, b) fs')
    (hpath : components path' = components path) (hle : offset ≤ o) (hin : o + m ≤ offset + n) :
    b.result = m ∧ ∃ buf, b.data = .bytes buf ∧ (∀ j < m, buf j = buffer (o - offset + j)) ∧
      ∀ j, m ≤ j → buf j = caller j := by
  obtain ⟨hreached, hmeaning⟩ := Serving.run_mkfs hrun
  rw [List.map_append, List.map_cons] at hmeaning
  obtain ⟨t₁, hbefore, hafter⟩ := hmeaning.append_inv
  obtain ⟨t₂, hwrite, hrest⟩ := hafter.cons_inv
  have hempty : FilesWithin .root 0 := fun cs f hf => by cases cs <;> cases hf
  have hw₁ := hempty.run hbefore
  rw [Nat.zero_add] at hw₁
  have hwritten := hwrite.hasBytes hw₁ (by omega) hn ha
  have hlast := hwritten.run (hwrite.filesWithin hw₁) hrest hsmall fun e he => by
    obtain ⟨e', he', rfl⟩ := List.mem_map.1 he
    exact hspares e' he'
  exact (hread.refines hreached).2.reads hlast hpath hle hin

/-- Three bytes are written, and two of them are read again after a file beside has been written and
removed. -/
theorem read_last_written_beside : ∃ (fs fs' : Fs) (b : Reply) (buf : Bytes),
    Serving fs (still, .read [47, 102] Bytes.zero 2 1, b) fs' ∧ b.data = .bytes buf ∧
      buf 0 = 8 ∧ buf 1 = 9 := by
  have hvalue : (answers (rufsMkfs still Bytes.zero).2 [(still, .create [47, 102] 0)]).any
      (fun s => (answer s.2 still (.write [47, 102] (fun j => UInt8.ofNat (7 + j)) 3 0)).any
        fun r => decide (r.1.result = 3) && (answers r.2 [(still, .create [47, 103] 0),
          (still, .write [47, 103] (fun _ => 5) 4 0), (still, .write [47, 102] (fun _ => 6) 2 3),
          (still, .unlink [47, 103])]).any fun s' =>
            decide (written (s.1.map Prod.snd) + 3 + written (s'.1.map Prod.snd) < 2 ^ 32) &&
            (s'.1.all (fun e => decide (e.2.1.Spares (components [47, 102]) 3 0)) &&
            (answer s'.2 still (.read [47, 102] Bytes.zero 2 1)).isSome)) = true := by
    decide +kernel
  obtain ⟨es, fs₀, hbefore, hvalue⟩ := run_of_any hvalue
  obtain ⟨a, fs₁, hwrite, hvalue⟩ := serving_of_any hvalue
  obtain ⟨ha, hvalue⟩ := (Bool.and_eq_true _ _).mp hvalue
  obtain ⟨es', fs, hafter, hvalue⟩ := run_of_any hvalue
  obtain ⟨hsmall, hvalue⟩ := (Bool.and_eq_true _ _).mp hvalue
  obtain ⟨hspares, hvalue⟩ := (Bool.and_eq_true _ _).mp hvalue
  obtain ⟨⟨b, fs'⟩, hread⟩ := Option.isSome_iff_exists.1 hvalue
  have hrun := (hbefore.snoc hwrite).append hafter
  rw [List.append_assoc, List.singleton_append] at hrun
  have hserving := serving_of_answer hread
  obtain ⟨-, buf, hdata, hbuf, -⟩ := read_last_written hrun (by decide)
    (of_decide_eq_true ha) (of_decide_eq_true hsmall)
    (fun e he => of_decide_eq_true (List.all_eq_true.1 hspares e he)) hserving rfl (by decide)
    (by decide)
  exact ⟨fs, fs', b, buf, hserving, hdata, hbuf 0 (by decide), hbuf 1 (by decide)⟩

/-! ## Removing -/

/-- What was there when something was made, outside of its path. -/
theorem Meaning.made_elsewhere (hs : Meaning t (q, a) t') (hmakes : q.makes ≠ none)
    (ha : a.result = 0) : t (components q.path) = none := by
  obtain ⟨-, hs⟩ := hs
  dsimp only at hs
  cases hs with
  | made _ _ hnone => exact hnone
  | missing => cases ha
  | taken => cases ha
  | noSpace => cases ha
  | removed hremoves => cases q <;> first | exact hremoves.elim | exact absurd rfl hmakes
  | _ => exact absurd rfl hmakes

theorem Meaning.removes (hs : Meaning t (r, b) t') (hremoves : r.Removes) (hb : b.result = 0) :
    t' = t.prune (components r.path) := by
  obtain ⟨-, hs⟩ := hs
  dsimp only at hs
  cases hs with
  | removed => rfl
  | missing => cases hb
  | taken => cases hb
  | noSpace => cases hb
  | made hmakes => cases r <;> first | exact hremoves.elim | cases hmakes
  | _ => exact hremoves.elim

/-- **Removing undoes.** Something is made, and after any requests to it and to what is below it, it
is removed. Then the tree is the one from before, whatever was made, written and removed in it. -/
theorem removal_undoes {es es' : List (Env × Request × Reply)}
    (hrun : Run Serving (rufsMkfs env Bytes.zero).2 es fs₀)
    (hmake : Serving fs₀ (env₁, q, a) fs₁) (hmakes : q.makes ≠ none) (ha : a.result = 0)
    (hinside : Run Serving fs₁ es' fs₂)
    (hbelow : ∀ e ∈ es', components q.path <+: components e.2.1.path)
    (hremove : Serving fs₂ (env₂, r, b) fs₃) (hremoves : r.Removes) (hb : b.result = 0)
    (hpath : components r.path = components q.path) : fs₃.tree = fs₀.tree := by
  obtain ⟨hreached₀, hmeaning⟩ := Serving.run_mkfs hrun
  obtain ⟨hreached₁, hmade⟩ := hmake.refines hreached₀
  obtain ⟨hreached₂, hrest⟩ := Serving.run hreached₁ hinside
  rw [(hremove.refines hreached₂).2.removes hremoves hb, hpath]
  have hnone := hmade.made_elsewhere hmakes ha
  refine (Meaning.run_wellFormed hmeaning).prune_eq hnone fun ds hds => ?_
  rw [Meaning.run_elsewhere hrest (fun e he => ?_) hds, hmade.elsewhere hds]
  obtain ⟨e', he', rfl⟩ := List.mem_map.1 he
  exact hbelow e' he'

/-- A directory is removed with a file that was written in it. -/
theorem removal_undoes_nested : ∃ (fs₀ fs₁ fs₂ fs₃ : Fs) (a b : Reply),
    Serving fs₀ (still, .mkdir [47, 100], a) fs₁ ∧ Serving fs₂ (still, .rmdir [47, 100], b) fs₃ ∧
      fs₁.tree [[100]] = some .dir ∧ fs₃.tree = fs₀.tree := by
  have hvalue : (answers (rufsMkfs still Bytes.zero).2 [(still, .mkdir [47, 101])]).any
      (fun s => (answer s.2 still (.mkdir [47, 100])).any fun r =>
        decide (r.1.result = 0) && (decide (r.2.tree [[100]] = some .dir) &&
          (answers r.2 [(still, .create [47, 100, 47, 102] 0),
            (still, .write [47, 100, 47, 102] (fun _ => 5) 4 0)]).any fun s' =>
              s'.1.all (fun e => decide (components [47, 100] <+: components e.2.1.path)) &&
              (answer s'.2 still (.rmdir [47, 100])).any fun r => decide (r.1.result = 0))) =
        true := by
    decide +kernel
  obtain ⟨es, fs₀, hrun, hvalue⟩ := run_of_any hvalue
  obtain ⟨a, fs₁, hmake, hvalue⟩ := serving_of_any hvalue
  obtain ⟨ha, hvalue⟩ := (Bool.and_eq_true _ _).mp hvalue
  obtain ⟨hdir, hvalue⟩ := (Bool.and_eq_true _ _).mp hvalue
  obtain ⟨es', fs₂, hinside, hvalue⟩ := run_of_any hvalue
  obtain ⟨hbelow, hvalue⟩ := (Bool.and_eq_true _ _).mp hvalue
  obtain ⟨b, fs₃, hremove, hb⟩ := serving_of_any hvalue
  exact ⟨fs₀, fs₁, fs₂, fs₃, a, b, hmake, hremove, of_decide_eq_true hdir,
    removal_undoes hrun hmake nofun (of_decide_eq_true ha) hinside
      (fun e he => of_decide_eq_true (List.all_eq_true.1 hbelow e he)) hremove trivial
      (of_decide_eq_true hb) rfl⟩

end UserOS.Rufs
