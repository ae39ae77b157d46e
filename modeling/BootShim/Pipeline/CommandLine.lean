-- SUMMARY: The command line in the measured page is the published one, with its words, exactly when it is shorter than a page.
import BootShim.Pipeline.Coverage

/-!
# The measured command line

The command line is normalised when the parameters are checked, held against a limit
out of the kernel's file, and cut or padded to a page. The last of the three can drop
its end, the terminator first.
-/

namespace BootShim.Pipeline

open Boot Bytes Checked Igvm Image Layout Snp

/-! ## The property -/

/-- The text in a page up to the first zero byte. -/
def pageText (pg : List UInt8) : List Char :=
  (pg.takeWhile (· ≠ 0)).map fun b => Char.ofNat b.toNat

/-- The words an operator asks for, the default's where the text is blank, and the
    required one after them unless it is among them. -/
def requestedWords (cmdline : List Char) : List (List Char) :=
  let words :=
    if Text.trim cmdline = [] then Text.splitWhitespace defaultCmdline
    else Text.splitWhitespace cmdline
  if words.contains requiredCmdline then words else words ++ [requiredCmdline]

/-- The page at the command line's address holds a terminated text, which is the one of
    the parameters and of the manifest and has the words that were asked for. -/
def CommandMeasured (requested : List Char) (params : Params) (published : List Char)
    (pages : List (Nat × List UInt8)) : Prop :=
  ∃ pg, (Layout.cmdline, pg) ∈ pages ∧ 0 ∈ pg ∧ pageText pg = params.cmdline ∧
    published = pageText pg ∧ Text.splitWhitespace (pageText pg) = requestedWords requested

/-! ## Words -/

/-- Normalising keeps the operator's words and adds the required one. -/
theorem splitWhitespace_normalizeCmdline (cmdline : List Char) :
    Text.splitWhitespace (Params.normalizeCmdline cmdline) = requestedWords cmdline := by
  have hwords : Text.splitWhitespace (Text.trim cmdline) = Text.splitWhitespace cmdline :=
    Text.splitWhitespace_trim cmdline
  have hrequired : Text.splitWhitespace requiredCmdline = [requiredCmdline] := by decide +kernel
  simp only [Params.normalizeCmdline, requestedWords, List.contains_iff_mem]
  cases htrim : Text.trim cmdline with
  | nil =>
    have hboth : Text.splitWhitespace (defaultCmdline ++ ' ' :: requiredCmdline) =
        Text.splitWhitespace defaultCmdline ++ [requiredCmdline] := by decide +kernel
    have hdefault : requiredCmdline ∉ Text.splitWhitespace defaultCmdline := by decide +kernel
    simp only [if_true, hdefault, if_false]
    exact hboth
  | cons c cs =>
    rw [htrim] at hwords
    simp only [reduceCtorEq, if_false]
    rw [← hwords]
    split
    · rfl
    · rw [Text.splitWhitespace_append_cons _ _ (by decide), hrequired]

/-! ## The page -/

/-- Every character is an ASCII one and none is the terminator. -/
def Ascii (cmdline : List Char) : Prop := ∀ c ∈ cmdline, c.toNat ≠ 0 ∧ c.toNat < 128

variable {cmdline : List Char}

theorem toNat_ofNat_of_ascii {c : Char} (h : c.toNat < 128) : (UInt8.ofNat c.toNat).toNat = c.toNat := by
  rw [UInt8.toNat_ofNat']
  exact Nat.mod_eq_of_lt (by omega)

/-- No byte of the text is the terminator. -/
theorem ne_zero_of_ascii (h : Ascii cmdline) :
    ∀ b ∈ cmdline.map (fun c => UInt8.ofNat c.toNat), b ≠ 0 := by
  intro b hb hzero
  obtain ⟨c, hc, rfl⟩ := List.mem_map.mp hb
  have hnat := congrArg UInt8.toNat hzero
  rw [toNat_ofNat_of_ascii (h c hc).2] at hnat
  exact (h c hc).1 hnat

/-- A text shorter than a page is read back from its page. -/
theorem commandPage_of_lt (h : Ascii cmdline) (hlen : cmdline.length < page) :
    0 ∈ commandPage cmdline ∧ pageText (commandPage cmdline) = cmdline := by
  have hpage : commandPage cmdline = cmdline.map (fun c => UInt8.ofNat c.toNat) ++
      0 :: zeros (page - (cmdline.length + 1)) := by
    rw [commandPage, List.take_of_length_le (by simp; omega), padTo]
    simp
  rw [hpage]
  refine ⟨by simp, ?_⟩
  have hnil : (0 :: zeros (page - (cmdline.length + 1))).takeWhile (· ≠ 0) = [] :=
    List.takeWhile_cons_of_neg (by decide)
  rw [pageText, List.takeWhile_append_of_pos (by simpa using ne_zero_of_ascii h), hnil,
    List.append_nil, List.map_map]
  refine (List.map_congr_left fun c hc => ?_).trans (List.map_id _)
  rw [Function.comp_apply, toNat_ofNat_of_ascii (h c hc).2, Char.ofNat_toNat, id]

/-- A text of a page or more leaves no room for its terminator. -/
theorem commandPage_of_le (h : Ascii cmdline) (hlen : page ≤ cmdline.length) :
    0 ∉ commandPage cmdline := by
  have hpage : commandPage cmdline = (cmdline.map (fun c => UInt8.ofNat c.toNat)).take page := by
    rw [commandPage, List.take_append_of_le_length (by simpa using hlen), padTo_of_length_eq]
    simpa using hlen
  rw [hpage]
  exact fun hzero => ne_zero_of_ascii h 0 (List.mem_of_mem_take hzero) rfl

/-! ## The condition -/

variable {pf : Platform} {blob : ShimBlob} {kernelFile initramfs : List UInt8} {params : Params}

/-- The command line's page is among the imported ones. -/
theorem Mapped.command_mem_pages (m : Mapped pf blob kernelFile initramfs params) :
    (Layout.cmdline, commandPage params.cmdline) ∈ m.pages := by
  obtain ⟨info, -, -, hp⟩ := prepare_eq_ok.mp m.prepare_ok
  have hcommand : m.p.command = commandPage params.cmdline := congrArg Prepared.command hp
  rw [← hcommand]
  exact m.mem_pages_of_measured m.sized.command_length m.mem_regions_command

/-- The measured page of a mapped image holds the command line exactly when it is shorter
    than the page. -/
theorem Mapped.commandMeasured_iff (m : Mapped pf blob kernelFile initramfs params)
    {requested : List Char} (hnormal : params.cmdline = Params.normalizeCmdline requested)
    (hascii : Ascii params.cmdline) :
    CommandMeasured requested params params.cmdline m.pages ↔ params.cmdline.length < page := by
  constructor
  · rintro ⟨pg, hpg, hzero, -⟩
    obtain rfl := eq_of_mem_of_pairwise m.pairwise_pages m.command_mem_pages hpg
    by_contra hlen
    exact commandPage_of_le hascii (not_lt.mp hlen) hzero
  · intro hlen
    obtain ⟨hzero, htext⟩ := commandPage_of_lt hascii hlen
    refine ⟨_, m.command_mem_pages, hzero, htext, htext.symm, ?_⟩
    rw [htext, hnormal, splitWhitespace_normalizeCmdline]

/-- The measured command line of a built image is the published one exactly when it is
    shorter than a page, on both platforms. -/
theorem built_commandMeasured_iff (crate : Crate) (hashes : Hashes) (blob : ShimBlob)
    (kernelFile initramfs : List UInt8) (ram : UInt64) (vcpus : UInt32) (cmdline : List Char)
    (mmio : List (UInt64 × UInt64)) (params : Params) (configHash : Option (List Char)) :
    (∀ out : Image.Built,
      Params.tdx ram vcpus cmdline mmio = .ok params →
      Image.build crate hashes blob kernelFile initramfs params configHash = .ok out →
      (CommandMeasured cmdline params out.manifest.commandLine out.pages ↔
        params.cmdline.length < page)) ∧
    ∀ (view : VmsaView) (p384 : P384) (cbit : UInt8) (idKey : Option (List Char))
        (guestSvn : UInt32) (out : Snp.Built),
      Params.snp ram vcpus cbit cmdline mmio = .ok params →
      Snp.build crate hashes view p384 blob kernelFile initramfs params configHash idKey guestSvn =
        .ok out →
      (CommandMeasured cmdline params out.manifest.commandLine (pagesByAddress out.pages) ↔
        params.cmdline.length < page) := by
  have hnormal : ∀ {cbit holeEnd}, Params.new ram vcpus cmdline cbit mmio holeEnd = .ok params →
      params.cmdline = Params.normalizeCmdline cmdline ∧ Ascii params.cmdline := by
    intro cbit holeEnd hparams
    have hadmitted := Params.new_eq_ok.mp hparams
    have hcmd : params.cmdline = Params.normalizeCmdline cmdline :=
      congrArg Params.cmdline hadmitted.eq
    refine ⟨hcmd, ?_⟩
    rw [hcmd]
    exact hadmitted.cmdline_ascii
  constructor
  · intro out hparams hbuild
    obtain ⟨run, rfl⟩ := tdx_build_eq_ok.mp hbuild
    rw [run.built_pages]
    exact run.commandMeasured_iff (hnormal hparams).1 (hnormal hparams).2
  · intro view p384 cbit idKey guestSvn out hparams hbuild
    obtain ⟨run, rfl⟩ := snp_build_eq_ok.mp hbuild
    rw [run.pagesByAddress_built]
    exact run.commandMeasured_iff (hnormal hparams).1 (hnormal hparams).2

/-- The default command line on a small guest. -/
theorem built_commandMeasured_sample :
    (∃ crate out, Image.build crate Sample.hashes Sample.blob Sample.kernelFile [1]
        (Sample.params 1 51 []) none = .ok out ∧
      CommandMeasured [] (Sample.params 1 51 []) out.manifest.commandLine out.pages) ∧
    ∃ crate out, Snp.build crate Sample.hashes Sample.view Sample.p384 Sample.blob
        Sample.kernelFile [1] (Sample.params 1 51 []) none none 0 = .ok out ∧
      CommandMeasured [] (Sample.params 1 51 []) out.manifest.commandLine
        (pagesByAddress out.pages) := by
  constructor
  · obtain ⟨m⟩ : Nonempty (Mapped .tdx Sample.blob Sample.kernelFile [1] (Sample.params 1 51 [])) :=
      Sample.nonempty_mapped .tdx 1 51 (by decide) nofun .nil (by decide)
    obtain ⟨out, hout⟩ := Sample.exists_tdx_build m
    exact ⟨_, out, hout, ((built_commandMeasured_iff _ _ _ _ _ _ _ _ _ _ _).1 _ Sample.tdx_eq_ok
      hout).mpr (by decide)⟩
  · obtain ⟨m⟩ : Nonempty (Mapped .snp Sample.blob Sample.kernelFile [1] (Sample.params 1 51 [])) :=
      Sample.nonempty_mapped .snp 1 51 (by decide) nofun .nil (by decide)
    obtain ⟨out, hout⟩ := Sample.exists_snp_build m
    exact ⟨_, out, hout, ((built_commandMeasured_iff _ _ _ _ _ _ _ _ _ _ _).2 _ _ _ _ _ _
      Sample.snp_eq_ok hout).mpr (by decide)⟩

/-- One long word is normalised to itself and the required one. -/
theorem normalizeCmdline_replicate {n : Nat} (hn : 6 < n) :
    Params.normalizeCmdline (List.replicate n 'x') =
      List.replicate n 'x' ++ ' ' :: requiredCmdline := by
  obtain ⟨n, rfl⟩ : ∃ k, n = k + 1 := ⟨n - 1, by omega⟩
  have hx : ∀ c ∈ List.replicate (n + 1) 'x', Text.isWhitespace c = false := by
    intro c hc
    rw [List.eq_of_mem_replicate hc]
    rfl
  have htrim : Text.trim (List.replicate (n + 1) 'x') = List.replicate (n + 1) 'x' := by
    rw [Text.trim, Text.trimStart, List.replicate_succ, List.dropWhile_cons_of_neg (by decide),
      ← List.replicate_succ, List.replicate_succ', Text.trimEnd,
      List.rdropWhile_concat_neg _ _ _ (by decide)]
  have hwords : Text.splitWhitespace (List.replicate (n + 1) 'x') = [List.replicate (n + 1) 'x'] := by
    rw [Text.splitWhitespace, List.splitOnP_eq_singleton hx]
    rfl
  have hother : requiredCmdline ∉ [List.replicate (n + 1) 'x'] := by
    intro hmem
    have hlen := congrArg List.length (List.mem_singleton.mp hmem)
    rw [List.length_replicate, show requiredCmdline.length = 6 from rfl] at hlen
    omega
  rw [Params.normalizeCmdline, htrim, List.replicate_succ]
  simp only
  rw [← List.replicate_succ, hwords, if_neg hother]

/-- A kernel that takes 64 KiB of command line gets a page without a terminator. -/
theorem not_commandMeasured_of_long :
    ∃ crate params out, Params.tdx 0x40000000 1 (List.replicate 4096 'x') [] = .ok params ∧
      Image.build crate Sample.hashes Sample.blob (putLE 4 Sample.kernelFile hdrCmdlineSize 0x10000)
        [1] params none = .ok out ∧
      ¬ CommandMeasured (List.replicate 4096 'x') params out.manifest.commandLine out.pages := by
  have hnormal : Params.normalizeCmdline (List.replicate 4096 'x') =
      List.replicate 4096 'x' ++ ' ' :: requiredCmdline := normalizeCmdline_replicate (by decide)
  have hascii : Ascii (List.replicate 4096 'x' ++ ' ' :: requiredCmdline) := by
    intro c hc
    rcases List.mem_append.mp hc with hc | hc
    · rw [List.eq_of_mem_replicate hc]
      decide
    · have hall : (' ' :: requiredCmdline).all fun c => c.toNat ≠ 0 ∧ c.toNat < 128 := by decide
      simpa using List.all_eq_true.mp hall c hc
  let params : Params := ⟨0x40000000, 1, List.replicate 4096 'x' ++ ' ' :: requiredCmdline, 51, []⟩
  have hlen : params.cmdline.length = 4103 := by
    simp only [params, List.length_append, List.length_replicate, List.length_cons]
    rfl
  have hparams : Params.tdx 0x40000000 1 (List.replicate 4096 'x') [] = .ok params := by
    refine Params.new_eq_ok.mpr ⟨by decide, by decide, by decide, by decide, by decide, by decide,
      by decide, hnormal ▸ hascii, nofun, nofun, ?_⟩
    rw [hnormal]
    rfl
  have hparse : parseBzimage (putLE 4 Sample.kernelFile hdrCmdlineSize 0x10000) =
      .ok ⟨1024, 0x100000, 0x10000⟩ := by decide +kernel
  have hp : prepare (putLE 4 Sample.kernelFile hdrCmdlineSize 0x10000) [1] params = .ok _ :=
    Sample.prepare_eq_ok hparse (by decide +kernel) (by decide) le_rfl (by rw [hlen]; decide)
  obtain ⟨m⟩ : Nonempty (Mapped .tdx Sample.blob
      (putLE 4 Sample.kernelFile hdrCmdlineSize 0x10000) [1] params) :=
    Mapped.nonempty hp (validate_blank_of_apart (sized_of_prepare hp) (by decide) nofun nofun .nil
      nofun) (by decide) fun b hb =>
        List.eq_of_mem_replicate (List.mem_of_mem_drop (List.mem_of_mem_take hb))
  have hbuild : ∃ out, Image.build (Sample.crate (Image.igvmFile m.pages)) Sample.hashes Sample.blob
      (putLE 4 Sample.kernelFile hdrCmdlineSize 0x10000) [1] params none = .ok out :=
    exists_tdx_build Sample.hashes m rfl rfl rfl
  obtain ⟨out, hout⟩ := hbuild
  refine ⟨_, params, out, hparams, hout, fun hmeasured => ?_⟩
  obtain ⟨run, rfl⟩ := tdx_build_eq_ok.mp hout
  rw [run.built_pages] at hmeasured
  have hlt := (run.commandMeasured_iff hnormal.symm hascii).mp hmeasured
  rw [hlen] at hlt
  exact absurd hlt (by decide)

end BootShim.Pipeline
