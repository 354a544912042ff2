import GuardRails.Spec.Fill

/-!
# `memalignInt`

A request for which the slots and the bins are large enough is served unless there was
trouble; any other request is served, refused after trouble, or stops the process.
-/

namespace GuardRails

open ByteMemory StateHoare

variable {env : Env} {off : Off} {s s' s₀ : Heap} {F G : Prop} {ctx : Ctx} {bt : List ℕ}
  {alignment usrSize : ℕ}

theorem Fits.allocSizeOf_eq {args : GRArgs} (hf : Fits args alignment usrSize) :
    allocSizeOf args alignment usrSize =
      elmHdrSz args + 8 + usrSize + if alignment > 1 then alignment else 0 := by
  have := hf.size
  exact Nat.mod_eq_of_lt (by omega)

theorem Fits.bin_lt {args : GRArgs} (hf : Fits args alignment usrSize) :
    log2fast (max pageSize (allocSizeOf args alignment usrSize)) < 40 := by
  have hsize := hf.size
  rw [← hf.allocSizeOf_eq] at hsize
  have hle : max pageSize (allocSizeOf args alignment usrSize) ≤ 2 ^ 39 :=
    max_le (by decide) hsize
  exact Nat.lt_succ_of_le ((log2fast_le_iff (by omega)).2 hle)

theorem Fits.usrSizeBin_lt {args : GRArgs} (hf : Fits args alignment usrSize) :
    log2fast usrSize < 40 := by
  have := hf.size
  exact Nat.lt_succ_of_le ((log2fast_le_iff (by omega)).2 (by omega))

theorem Fits.room {args : GRArgs} (hf : Fits args alignment usrSize) :
    elmHdrSz args ≤ allocSizeOf args alignment usrSize := by
  rw [hf.allocSizeOf_eq]
  omega

theorem Fits.class_lt {args : GRArgs} (hf : Fits args alignment usrSize) :
    classOf args alignment usrSize < 40 :=
  hf.bin_lt

/-- While the heap is being set up, another `initialize` does not get anywhere. -/
theorem grInitialize_nested {Q : Unit → Heap → Prop} (hR : Rep env off s)
    (hinit : s.isInit = false) (hlocked : s.initMutex.locked = true)
    (hF : F → Trouble env s.log) : wp (grInitialize ctx) Q (Halted env F G) s := by
  have hhalt : ∀ e s', ¬ e.Barred → e ≠ .outOfBounds → s'.log = s.log →
      Halted env F G e s' := by
    intro e s' he hb hlog
    exact ⟨hlog ▸ hR.log_ok, fun h => .inl (hlog ▸ hF h), he, fun _ _ => hb⟩
  unfold grInitialize
  refine wp_bind (wp_get (wp_ite (fun h => absurd h (by simp [hinit])) fun _ => ?_))
  refine wp_bind (wp_grAssert (fun _ => ?_) fun _ => hhalt _ _ nofun nofun rfl)
  refine wp_bind (wp_grAssert (fun _ => ?_) fun _ => hhalt _ _ nofun nofun rfl)
  refine wp_bind (wp_modify (wp_bind (wp_pthreadMutexLock (fun hrec => ?_) fun _ _ => hhalt _ _ nofun nofun rfl)))
  have hkind := hR.shape.locks.initMutex.kind.symm.trans (hrec hlocked)
  exact absurd hkind (by decide)

theorem memalignInt_spec (hctx : ctx.Ok env) (hR : Rep env off s) (hr : Ready env F s)
    (hoff : env.Calm → off = 0) (hset : F → SetUp env s ∨ Trouble env s.log)
    (halign : alignment < 2 ^ 64) (husr : usrSize < 2 ^ 64)
    (hfits : F → Fits env.args alignment usrSize ∨ Trouble env s.log)
    (hclass : env.StdioFits → G → classOf env.args alignment usrSize < 40) :
    wp (memalignInt ctx bt alignment usrSize)
      (fun p s' => (p = 0 ∧ InCall env F off ∅ s s' ∧ Trouble env s'.log) ∨
        (p ≠ 0 ∧ ∃ a B, a.ptr = p ∧ Served env F off ∅ s s' bt alignment usrSize a B ∧
          Poisoned env.args s'.mem a))
      (Halted env F G) s := by
  have hargs := hR.shape.args_eq
  unfold memalignInt
  refine wp_bind (wp_get ?_)
  rw [hargs]
  extract_lets allocSize done rest
  have halloc : allocSize < 2 ^ 64 := Nat.mod_lt _ (by norm_num)
  have hrest : wp (rest ())
      (fun p s' => (p = 0 ∧ InCall env F off ∅ s s' ∧ Trouble env s'.log) ∨
        (p ≠ 0 ∧ ∃ a B, a.ptr = p ∧ Served env F off ∅ s s' bt alignment usrSize a B ∧
          Poisoned env.args s'.mem a))
      (Halted env F G) s := by
    refine wp_bind_of (getBuf_spec hctx hR hr hoff hset halloc
      (fun hF => (hfits hF).imp_left Fits.slots) (fun hF => (hfits hF).imp_left Fits.bin_lt)
      (fun hF => (hfits hF).imp_left Fits.usrSizeBin_lt)
      (fun hF => (hfits hF).imp_left Fits.room) hclass) ?_
    rintro ⟨buf, endBuf⟩ s₁ ht
    dsimp only at ht
    obtain ⟨size, hbin⟩ : ∃ size, size = 2 ^ log2fast (max pageSize allocSize) := ⟨_, rfl⟩
    rw [← hbin] at ht
    cases ht with
    | none h0 hc hT =>
        obtain rfl : buf = 0 := h0
        refine wp_ite (fun _ => ?_) fun h => absurd rfl h
        refine wp_bind (wp_get (wp_ite (fun _ => ?_) fun _ => ?_))
        · exact wp_bind (wp_throw (.of_trouble hc.rep.log_ok (fun _ => hT) nofun nofun))
        · exact wp_pure (.inl ⟨rfl, hc, hT⟩)
    | some B hend hc hnew hB hp hlive hreq hsize hfit =>
        obtain rfl : endBuf = buf + size := hend
        have h0 := (hc.rep.shape.layout.block_bounds hB).1
        refine wp_ite (fun h => absurd h h0.ne') fun _ => ?_
        have hwrap : F → elmHdrSz env.args + 8 + usrSize +
            (if alignment > 1 then alignment else 0) < 2 ^ 64 ∨ Trouble env s.log := fun hF =>
          (hfits hF).imp_left fun hf => hf.size.trans_lt (by decide)
        have key := fillBlock_spec (G := G) (q := ⟨buf, usrSize, bt⟩) hc hnew hB hp hlive hreq hsize hbin
          halign husr hfit hwrap
        exact wp_mono key (fun _ _ h => .inr h) fun _ _ hE => hE
  refine wp_bind (wp_get (wp_ite (fun h0 => ?_) fun _ => hrest))
  have hlocked := hr.init.resolve_left (by simp [h0])
  exact wp_bind (grInitialize_nested hR h0 hlocked fun hF =>
    (hset hF).resolve_left fun h => absurd (h0.symm.trans h.isInit) nofun)

end GuardRails
