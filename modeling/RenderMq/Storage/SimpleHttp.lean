import RenderMq.Storage.Http
import Mathlib.Tactic.IntervalCases
import Mathlib.Tactic.Positivity

/-!
# A metatile from a plain tile server

`simple_http_storage::get_meta` fetches the tiles of a metatile one by one from any server of tiles, and
puts headers in front of them. `GetsRight` is what is asked of it, of a server that answers every
request well: each tile is the one that the server has at its URL.

Three things go wrong. The rows are counted from the column of the metatile and the columns from its
row; the sizes are filled in a row, which is not where the headers look for them when the grid is
smaller than a metatile; and the tiles are added to what the string has in it. `alwaysRight_iff` says that
nothing else does (`InPlace`).
-/

namespace RenderMq

/-- `simple_http_storage`. The URL of a tile is what `m_format` makes of a style, a zoom level, a column
and a row. -/
structure SimpleHttpStorage where
  makeUrl : String → Int → Int → Int → String

namespace SimpleHttpStorage

variable (http : SimpleHttpStorage)

/-- `size` of `get_meta`: how many tiles of a metatile there are in a row. -/
def size (z : Int) : Int :=
  let size := (1#32 <<< z.toNat).toInt
  if METATILE < size then METATILE else size

/-- `for (int v = first; v < first + size; v++)`. -/
def range (first size : Int) : List Int := (List.range size.toNat).map fun n : Nat => first + n

/-- The URLs that are fetched, in this order. Which number a loop starts with is as in the source. -/
def fetchUrls (tile : TileProtocol) : List String :=
  let coord := xyToMetaXy tile.x tile.y
  (getFormatsVec tile.format).flatMap fun _ =>
    (range coord.1 (size tile.z)).flatMap fun y =>
      (range coord.2 (size tile.z)).map fun x => http.makeUrl tile.style tile.z x y

/-- The loops of `get_meta`. Each body is added to the data, and its size is the next of the sizes. -/
def fetchTiles (get : String → Fetched) :
    List String → Bytes → List (BitVec 32) → Nat → Bool × Bytes × List (BitVec 32)
  | [], data, sizes, _ => (true, data, sizes)
  | url :: urls, data, sizes, tileSize =>
    match get url with
    | .error _ => (false, data, sizes)
    | .ok response =>
      if response.good then
        fetchTiles get urls (data ++ response.body)
          (sizes.set tileSize (.ofNat 32 response.body.length)) (tileSize + 1)
      else (false, data, sizes)

/-- `get_meta`: whether it succeeds, and what is in the string then. -/
def getMeta (get : String → Fetched) (tile : TileProtocol) (data : Bytes) :
    Except String (Bool × Bytes) :=
  let coord := xyToMetaXy tile.x tile.y
  let formats := getFormatsVec tile.format
  let sizes := List.replicate (formats.length * 64) 0#32
  match fetchTiles get (http.fetchUrls tile) data sizes 0 with
  | (false, data, _) => .ok (false, data)
  | (true, data, sizes) => do
    let headers ← writeHeaders coord.1 coord.2 tile.z formats sizes
    .ok (true, headers ++ (data ++ [0]))

/-! ## What is asked of it -/

/-- The tiles are few and small enough for an `int` to tell where each of them starts. -/
def Fits (served : String → Response) (tile : TileProtocol) : Prop :=
  (getFormatsVec tile.format).length * headerSize +
    ((http.fetchUrls tile).map fun url => (served url).body.length).sum < 2 ^ 31

/-- It succeeds, and each tile of the grid is in each format what the server has at its URL. -/
structure GetsRight (served : String → Response) (tile : TileProtocol) (data output : Bytes) :
    Prop where
  ret : http.getMeta (fun url => .ok (served url)) tile data = .ok (true, output)
  tiles : ∀ fmt ∈ getFormatsVec tile.format, ∀ x y, metaFloor x = metaFloor tile.x →
    metaFloor y = metaFloor tile.y → inGrid tile.z (tileIndex x y) = true →
    (metatileReader output fmt).get x y = some (served (http.makeUrl tile.style tile.z x y)).body

/-- It gets the tiles of every server that answers well. -/
def AlwaysRight (tile : TileProtocol) (data : Bytes) : Prop :=
  ∀ served : String → Response, (∀ url, (served url).good = true) → http.Fits served tile →
    ∃ output, http.GetsRight served tile data output

/-- Exchanging the row and the column of the metatile makes no difference to the URLs. -/
def Crossed (tile : TileProtocol) : Prop :=
  ∀ c r : Int, 0 ≤ c → c < size tile.z → 0 ≤ r → r < size tile.z →
    http.makeUrl tile.style tile.z (metaFloor tile.y + c) (metaFloor tile.x + r) =
      http.makeUrl tile.style tile.z (metaFloor tile.x + c) (metaFloor tile.y + r)

/-- There is nothing to get. Or the string is empty, the right URLs are fetched, and either the grid is
as large as a metatile or there is a single tile in it and a single format. -/
def InPlace (tile : TileProtocol) (data : Bytes) : Prop :=
  getFormatsVec tile.format = [] ∨ size tile.z ≤ 0 ∨
    (data = [] ∧ http.Crossed tile ∧
      (size tile.z = METATILE ∨
        size tile.z = 1 ∧ (getFormatsVec tile.format).length = 1))

/-! ## The loops -/

section Loops

variable {http : SimpleHttpStorage} {served : String → Response}

theorem size_eq (z : Int) : size z = getMetaDimensions z := by
  unfold size getMetaDimensions
  simp only [min_def]
  split <;> split <;> omega

theorem size_le (z : Int) : size z ≤ METATILE := by
  rw [size_eq]
  exact min_le_right ..

theorem length_range (first size : Int) : (range first size).length = size.toNat := by
  rw [range, List.length_map, List.length_range]

theorem getElem?_range (first : Int) {size : Int} {n : Nat} (hn : (n : Int) < size) :
    (range first size)[n]? = some (first + n) := by
  rw [range, List.getElem?_map, List.getElem?_range (by omega), Option.map_some]

/-- All answers are good: the bodies are added, and their sizes are filled in a row. -/
theorem fetchTiles_good (good : ∀ url, (served url).good = true) (urls : List String) (data : Bytes)
    (before : List (BitVec 32)) (m : Nat) :
    fetchTiles (fun url => .ok (served url)) urls data
        (before ++ List.replicate (urls.length + m) 0#32) before.length =
      (true, data ++ (urls.map fun url => (served url).body).flatten,
        before ++ sizesOf (urls.map fun url => (served url).body) ++ List.replicate m 0#32) := by
  induction urls generalizing data before with
  | nil => simp [fetchTiles, sizesOf]
  | cons url urls ih =>
    set size := BitVec.ofNat 32 (served url).body.length with hsize
    have hset : (before ++ List.replicate ((url :: urls).length + m) 0#32).set before.length size =
        (before ++ [size]) ++ List.replicate (urls.length + m) 0#32 := by
      rw [List.length_cons, Nat.add_right_comm, List.replicate_succ,
        List.set_append_right _ _ (Nat.le_refl _), Nat.sub_self, List.set_cons_zero,
        List.append_assoc, List.singleton_append]
    have hnext := ih (data ++ (served url).body) (before ++ [size])
    rw [List.length_append, List.length_singleton] at hnext
    rw [fetchTiles]
    simp only [good url, if_true, ← hsize, hset, hnext]
    simp [sizesOf, hsize]

theorem length_fetchUrls (tile : TileProtocol) :
    (http.fetchUrls tile).length =
      (getFormatsVec tile.format).length * ((size tile.z).toNat * (size tile.z).toNat) := by
  simp [fetchUrls, List.length_flatMap, length_range]

theorem length_fetchUrls_le (tile : TileProtocol) :
    (http.fetchUrls tile).length ≤ (getFormatsVec tile.format).length * 64 := by
  have hsize : (size tile.z).toNat ≤ 8 := Int.toNat_le.mpr (size_le tile.z)
  rw [length_fetchUrls]
  exact Nat.mul_le_mul_left _ (Nat.mul_le_mul hsize hsize)

/-- The bodies that are fetched, and nothing at the positions that are left. -/
def slots (http : SimpleHttpStorage) (served : String → Response) (tile : TileProtocol) :
    List Bytes :=
  (http.fetchUrls tile).map (fun url => (served url).body) ++
    List.replicate ((getFormatsVec tile.format).length * 64 - (http.fetchUrls tile).length) []

theorem length_slots (tile : TileProtocol) :
    (http.slots served tile).length = (getFormatsVec tile.format).length * 64 := by
  rw [slots, List.length_append, List.length_map, List.length_replicate]
  exact Nat.add_sub_cancel' (length_fetchUrls_le tile)

theorem flatten_slots (tile : TileProtocol) :
    (http.slots served tile).flatten =
      ((http.fetchUrls tile).map fun url => (served url).body).flatten := by
  rw [slots, List.flatten_append, List.flatten_replicate_nil, List.append_nil]

/-- **What comes out of it**, of a server that answers every request well. -/
theorem getMeta_good (good : ∀ url, (served url).good = true) (tile : TileProtocol) (data : Bytes) :
    http.getMeta (fun url => .ok (served url)) tile data =
      .ok (true, (headersOf (metaFloor tile.x) (metaFloor tile.y) tile.z (getFormatsVec tile.format)
        (sizesOf (http.slots served tile))).flatMap MetaLayout.encode ++
          (data ++ (http.slots served tile).flatten ++ [0])) := by
  have hfetch := fetchTiles_good good (http.fetchUrls tile) data []
    ((getFormatsVec tile.format).length * 64 - (http.fetchUrls tile).length)
  rw [Nat.add_sub_cancel' (length_fetchUrls_le tile), List.nil_append, List.nil_append,
    List.length_nil] at hfetch
  have hsizes : sizesOf ((http.fetchUrls tile).map fun url => (served url).body) ++
      List.replicate ((getFormatsVec tile.format).length * 64 - (http.fetchUrls tile).length) 0#32 =
        sizesOf (http.slots served tile) := by
    rw [slots, sizesOf, sizesOf, List.map_append, List.map_replicate]
    rfl
  have hcount : (http.slots served tile).length = (getFormatsVec tile.format).length * 64 :=
    length_slots tile
  have hheaders := writeHeaders_ok (x := metaFloor tile.x) (y := metaFloor tile.y) (z := tile.z)
    hcount
  simp only [getMeta, hfetch, hsizes, xyToMetaXy, hheaders, flatten_slots]
  rfl

/-- What is read at a position: as many bytes as the size there says, after as many as the sizes before
it add up to. -/
theorem get_headers {x y z : Int} {formats : List ProtoFmt} {bodies : List Bytes} {tail : Bytes}
    (distinct : formats.Nodup) (count : bodies.length = formats.length * 64)
    (small : formats.length * headerSize + bodies.flatten.length < 2 ^ 31)
    (room : bodies.flatten.length ≤ tail.length) {fmt : ProtoFmt} {k : Nat}
    (hk : formats[k]? = some fmt) (px py : Int) {body : Bytes}
    (hbody : bodies[64 * k + tileIndex px py]? = some body) :
    (metatileReader ((headersOf x y z formats (sizesOf bodies)).flatMap MetaLayout.encode ++ tail)
        fmt).get px py =
      some ((tail.drop (bodies.take (64 * k + tileIndex px py)).flatten.length).take body.length) := by
  obtain ⟨h, hmem, rfl, b, hb, hget⟩ := headersOf_entry (x := x) (y := y) (z := z) count hk
    (tileIndex px py)
  obtain rfl : b = body := Option.some.inj (hb.symm.trans hbody)
  obtain ⟨hn, rfl⟩ := List.getElem?_eq_some_iff.mp hb
  have hsplit := congrArg List.length (flatten_split bodies _ hn)
  rw [List.length_append, List.length_append] at hsplit
  set headers := (headersOf x y z formats (sizesOf bodies)).flatMap MetaLayout.encode with hheaders
  have hlength : headers.length = formats.length * headerSize := by
    rw [hheaders, length_flatMap_encode, length_headersOf]
  have hfits : formats.length * headerSize +
      (bodies.take (64 * k + tileIndex px py)).flatten.length +
        bodies[64 * k + tileIndex px py].length ≤ (headers ++ tail).length := by
    rw [List.length_append, hlength]
    omega
  obtain ⟨hbounds, hbytes⟩ := entry_ofNat (by omega) hfits
  have hfind : (metatileReader (headers ++ tail) h.fmt).header = some h := by
    rw [metatileReader, hheaders, headerBlocks_flatMap]
    refine findHeader_of_mem (fun g hg => (magicOk_headersOf hg).1) ?_ hmem
    rwa [headersOf_fmt]
  rw [← hget] at hbounds hbytes
  rw [MetatileReader.get_of_inBounds hfind hbounds]
  refine congrArg some (hbytes.trans ?_)
  rw [← List.drop_drop, ← hlength, List.drop_left]

/-- What is read at a position of the output. -/
theorem get_output (good : ∀ url, (served url).good = true) {tile : TileProtocol} {data : Bytes}
    (fits : http.Fits served tile) {output : Bytes}
    (hget : http.getMeta (fun url => .ok (served url)) tile data = .ok (true, output))
    {fmt : ProtoFmt} {k : Nat} (hk : (getFormatsVec tile.format)[k]? = some fmt) (px py : Int)
    {body : Bytes} (hbody : (http.slots served tile)[64 * k + tileIndex px py]? = some body) :
    (metatileReader output fmt).get px py =
      some (((data ++ (http.slots served tile).flatten ++ [0]).drop
        ((http.slots served tile).take (64 * k + tileIndex px py)).flatten.length).take
          body.length) := by
  rw [getMeta_good good] at hget
  obtain rfl := (Prod.mk.inj (Except.ok.inj hget)).2
  have hflatten : (http.slots served tile).flatten.length =
      ((http.fetchUrls tile).map fun url => (served url).body.length).sum := by
    rw [flatten_slots, List.length_flatten, List.map_map]
    rfl
  refine get_headers (getFormatsVec_nodup _) (length_slots tile) ?_ ?_ hk px py hbody
  · rw [hflatten]
    exact fits
  · rw [List.length_append, List.length_append]
    omega

/-- Where the string is empty, the slots are read. -/
theorem get_slots (good : ∀ url, (served url).good = true) {tile : TileProtocol}
    (fits : http.Fits served tile) {output : Bytes}
    (hget : http.getMeta (fun url => .ok (served url)) tile [] = .ok (true, output)) {fmt : ProtoFmt}
    {k : Nat} (hk : (getFormatsVec tile.format)[k]? = some fmt) (px py : Int) :
    (metatileReader output fmt).get px py =
      (http.slots served tile)[64 * k + tileIndex px py]? := by
  have hn : 64 * k + tileIndex px py < (http.slots served tile).length := by
    obtain ⟨hlt, _⟩ := List.getElem?_eq_some_iff.mp hk
    have := (tileIndex px py).isLt
    rw [length_slots]
    omega
  rw [get_output good fits hget hk px py (List.getElem?_eq_getElem hn), List.getElem?_eq_getElem hn,
    List.nil_append]
  conv_lhs => rw [flatten_split _ _ hn]
  rw [List.append_assoc, List.append_assoc, List.drop_left, List.take_left]

/-- The slots that are filled. -/
theorem getElem?_slots_of_url {tile : TileProtocol} {n : Nat} {url : String}
    (hurl : (http.fetchUrls tile)[n]? = some url) :
    (http.slots served tile)[n]? = some (served url).body := by
  obtain ⟨hlt, _⟩ := List.getElem?_eq_some_iff.mp hurl
  rw [slots, List.getElem?_append_left (by rwa [List.length_map]), List.getElem?_map, hurl,
    Option.map_some]

/-- The slots that are left. -/
theorem getElem?_slots_of_le {tile : TileProtocol} {n : Nat}
    (hfetched : (http.fetchUrls tile).length ≤ n)
    (hn : n < (getFormatsVec tile.format).length * 64) :
    (http.slots served tile)[n]? = some [] := by
  rw [slots, List.getElem?_append_right (by rwa [List.length_map]), List.length_map,
    List.getElem?_replicate_of_lt (by omega)]

end Loops

/-! ## When it is right -/

section Right

variable {http : SimpleHttpStorage} {served : String → Response} {tile : TileProtocol}
  {data : Bytes}

/-- With the grid as large as a metatile there are 64 URLs for each format. -/
theorem getElem?_fetchUrls (hsize : size tile.z = METATILE) {fmt : ProtoFmt} {k : Nat}
    (hk : (getFormatsVec tile.format)[k]? = some fmt) (i : Fin 64) :
    (http.fetchUrls tile)[64 * k + i]? =
      some (http.makeUrl tile.style tile.z (metaFloor tile.y + (i % 8 : Nat))
        (metaFloor tile.x + (i / 8 : Nat))) := by
  have hrow (y : Int) : ((range (metaFloor tile.y) METATILE).map fun x =>
      http.makeUrl tile.style tile.z x y).length = 8 := by
    rw [List.length_map, length_range]
    rfl
  have hgrid : ((range (metaFloor tile.x) METATILE).flatMap fun y =>
      (range (metaFloor tile.y) METATILE).map fun x =>
        http.makeUrl tile.style tile.z x y).length = 64 := by
    simp [List.length_flatMap, length_range]
    rfl
  have hcol : ((i % 8 : Nat) : Int) < METATILE ∧ ((i / 8 : Nat) : Int) < METATILE := by
    unfold METATILE
    omega
  simp only [fetchUrls, xyToMetaXy, hsize]
  rw [Pieces.getElem?_flatMap_block (fun _ => hgrid) _ _ i.isLt, hk, Option.bind_some]
  conv_lhs => rw [← Nat.div_add_mod i 8]
  rw [Pieces.getElem?_flatMap_block hrow _ _ (Nat.mod_lt _ (by decide)),
    getElem?_range _ hcol.2, Option.bind_some, List.getElem?_map, getElem?_range _ hcol.1,
    Option.map_some]

theorem inGrid_iff (z : Int) (i : Fin 64) :
    inGrid z i = true ↔ ((i % 8 : Nat) : Int) < size z ∧ ((i / 8 : Nat) : Int) < size z := by
  rw [inGrid, size_eq, Bool.and_eq_true, decide_eq_true_eq, decide_eq_true_eq]

/-- What is fetched for a position, where the sizes are filled in where the headers look. -/
theorem getElem?_slots (placed : size tile.z = METATILE ∨
      size tile.z = 1 ∧ (getFormatsVec tile.format).length = 1) {fmt : ProtoFmt} {k : Nat}
    (hk : (getFormatsVec tile.format)[k]? = some fmt) {i : Fin 64} (hi : inGrid tile.z i = true) :
    (http.slots served tile)[64 * k + i]? =
      some (served (http.makeUrl tile.style tile.z (metaFloor tile.y + (i % 8 : Nat))
        (metaFloor tile.x + (i / 8 : Nat)))).body := by
  have hurl : (http.fetchUrls tile)[64 * k + i]? =
      some (http.makeUrl tile.style tile.z (metaFloor tile.y + (i % 8 : Nat))
        (metaFloor tile.x + (i / 8 : Nat))) := by
    rcases placed with hsize | ⟨hsize, hone⟩
    · exact getElem?_fetchUrls hsize hk i
    · obtain ⟨f, hf⟩ := List.length_eq_one_iff.mp hone
      obtain rfl : k = 0 := by
        have := (List.getElem?_eq_some_iff.mp hk).1
        omega
      rw [inGrid_iff, hsize] at hi
      have hzero : (i : Nat) = 0 := by omega
      simp [fetchUrls, hf, xyToMetaXy, hsize, range, hzero]
  exact getElem?_slots_of_url hurl

/-- **What is in place is got right.** -/
theorem getsRight_of_inPlace (good : ∀ url, (served url).good = true)
    (fits : http.Fits served tile) (place : http.InPlace tile data) :
    ∃ output, http.GetsRight served tile data output := by
  refine ⟨_, getMeta_good good tile data, fun fmt hfmt x y hx hy hgrid => ?_⟩
  have hin := (inGrid_iff tile.z (tileIndex x y)).mp hgrid
  rcases place with hnone | hempty | ⟨rfl, crossed, placed⟩
  · rw [hnone] at hfmt
    cases hfmt
  · omega
  · obtain ⟨k, hk⟩ := List.getElem?_of_mem hfmt
    rw [get_slots good fits (getMeta_good good tile []) hk x y, getElem?_slots placed hk hgrid,
      crossed _ _ (Int.natCast_nonneg _) hin.1 (Int.natCast_nonneg _) hin.2, tileIndex_col,
      tileIndex_row, ← hx, ← hy, metaFloor_add_emod, metaFloor_add_emod]

/-- A server whose tiles are single bytes, or empty. -/
theorem fits_of_short (short : ∀ url, (served url).body.length ≤ 1) : http.Fits served tile := by
  have hformats : (getFormatsVec tile.format).length ≤ 4 := List.length_filter_le ..
  have hsum : ∀ urls : List String,
      (urls.map fun url => (served url).body.length).sum ≤ urls.length := by
    intro urls
    induction urls with
    | nil => exact Nat.le_refl 0
    | cons url urls ih =>
      have := short url
      rw [List.map_cons, List.sum_cons, List.length_cons]
      omega
  have hurls := hsum (http.fetchUrls tile)
  have hcount : (http.fetchUrls tile).length ≤ _ := length_fetchUrls_le tile
  unfold Fits headerSize
  omega

/-- A server that has the same body everywhere. -/
def everywhere (body : Bytes) (_ : String) : Response := ⟨200, 1, body⟩

theorem short_everywhere (b : UInt8) (url : String) : (everywhere [b] url).body.length ≤ 1 :=
  Nat.le_refl 1

/-- The last format and the last position of the grid come after all URLs, unless the sizes are filled
in where the headers look. -/
theorem length_fetchUrls_le_last (hone : 0 < (getFormatsVec tile.format).length)
    (hsize : 0 < size tile.z)
    (hplaced : ¬ (size tile.z = METATILE ∨
      size tile.z = 1 ∧ (getFormatsVec tile.format).length = 1)) :
    (http.fetchUrls tile).length ≤
      64 * ((getFormatsVec tile.format).length - 1) + 9 * ((size tile.z).toNat - 1) := by
  have hle := size_le tile.z
  rw [length_fetchUrls]
  generalize (getFormatsVec tile.format).length = n at *
  obtain ⟨d, hd⟩ := Int.eq_ofNat_of_zero_le hsize.le
  rw [hd] at hsize hplaced hle ⊢
  rw [Int.toNat_natCast]
  unfold METATILE at *
  have hd8 : d < 8 := by omega
  have hd1 : 1 ≤ d := by omega
  interval_cases d <;> omega

/-- There is a tile at each position of a metatile. -/
theorem exists_tileIndex (tile : TileProtocol) (i : Fin 64) :
    ∃ x y, metaFloor x = metaFloor tile.x ∧ metaFloor y = metaFloor tile.y ∧ tileIndex x y = i := by
  have hcol := metaFloor_add (v := tile.x) (d := (i % 8 : Nat)) (by omega)
    (by unfold METATILE; omega)
  have hrow := metaFloor_add (v := tile.y) (d := (i / 8 : Nat)) (by omega)
    (by unfold METATILE; omega)
  refine ⟨_, _, hcol.1, hrow.1, Fin.ext ?_⟩
  show xyzToMetaOffset _ _ = _
  rw [xyzToMetaOffset, hcol.2, hrow.2]
  unfold METATILE
  omega

/-- What is read at a position is what the server has at its URL. -/
theorem AlwaysRight.slot (right : http.AlwaysRight tile data)
    (good : ∀ url, (served url).good = true) (short : ∀ url, (served url).body.length ≤ 1)
    {fmt : ProtoFmt} {k : Nat} (hk : (getFormatsVec tile.format)[k]? = some fmt) {i : Fin 64}
    (hi : inGrid tile.z i = true) {body : Bytes}
    (hbody : (http.slots served tile)[64 * k + i]? = some body) :
    ((data ++ (http.slots served tile).flatten ++ [0]).drop
        ((http.slots served tile).take (64 * k + i)).flatten.length).take body.length =
      (served (http.makeUrl tile.style tile.z (metaFloor tile.x + (i % 8 : Nat))
        (metaFloor tile.y + (i / 8 : Nat)))).body := by
  have fits : http.Fits served tile := fits_of_short short
  obtain ⟨output, hright⟩ := right served good fits
  obtain ⟨x, y, hx, hy, rfl⟩ := exists_tileIndex tile i
  have hread := hright.tiles fmt (List.mem_of_getElem? hk) x y hx hy hi
  rw [get_output good fits hright.ret hk x y hbody] at hread
  rw [Option.some.inj hread, tileIndex_col, tileIndex_row, ← hx, ← hy, metaFloor_add_emod,
    metaFloor_add_emod]

/-- The string is empty: its first byte would be read in place of the first tile. -/
theorem AlwaysRight.data_eq_nil (right : http.AlwaysRight tile data) {fmt : ProtoFmt}
    (hfirst : (getFormatsVec tile.format)[0]? = some fmt) (hsize : 0 < size tile.z) : data = [] := by
  cases data with
  | nil => rfl
  | cons d rest =>
    exfalso
    have hgrid : inGrid tile.z 0 = true := (inGrid_iff _ _).mpr ⟨hsize, hsize⟩
    have hurls : 0 < (http.fetchUrls tile).length := by
      have hformats := (List.getElem?_eq_some_iff.mp hfirst).1
      have hrow : 0 < (size tile.z).toNat := by omega
      rw [length_fetchUrls]
      positivity
    have hbody : (http.slots (everywhere [d + 1]) tile)[64 * 0 + ((0 : Fin 64) : Nat)]? =
        some [d + 1] :=
      getElem?_slots_of_url (List.getElem?_eq_getElem hurls)
    have hread := right.slot (fun _ => rfl) (short_everywhere _) hfirst hgrid hbody
    simp [everywhere] at hread

/-- The sizes are filled in where the headers look: else no tile is read at the last position. -/
theorem AlwaysRight.placed (right : http.AlwaysRight tile data)
    (hone : 0 < (getFormatsVec tile.format).length) (hsize : 0 < size tile.z) :
    size tile.z = METATILE ∨ size tile.z = 1 ∧ (getFormatsVec tile.format).length = 1 := by
  by_contra hplaced
  have hlast : (http.fetchUrls tile).length ≤ _ := length_fetchUrls_le_last hone hsize hplaced
  have hle := size_le tile.z
  unfold METATILE at hle
  set n := (getFormatsVec tile.format).length with hn
  set m := (size tile.z).toNat - 1 with hm
  have hi : 9 * m < 64 := by omega
  have hgrid : inGrid tile.z ⟨9 * m, hi⟩ = true := by
    rw [inGrid_iff]
    show ((9 * m % 8 : Nat) : Int) < size tile.z ∧ ((9 * m / 8 : Nat) : Int) < size tile.z
    omega
  have hk := List.getElem?_eq_getElem (l := getFormatsVec tile.format) (i := n - 1) (by omega)
  have hbody : (http.slots (everywhere [0]) tile)[64 * (n - 1) + 9 * m]? = some [] :=
    getElem?_slots_of_le hlast (by omega)
  have hread := right.slot (fun _ => rfl) (short_everywhere _) hk hgrid hbody
  cases hread

/-- The right URLs are fetched: else there is a server with a tile at the right one only. -/
theorem AlwaysRight.crossed (right : http.AlwaysRight tile data) {fmt : ProtoFmt}
    (hfirst : (getFormatsVec tile.format)[0]? = some fmt)
    (placed : size tile.z = METATILE ∨
      size tile.z = 1 ∧ (getFormatsVec tile.format).length = 1) : http.Crossed tile := by
  intro c r hc0 hc hr0 hr
  by_contra hne
  have hle := size_le tile.z
  unfold METATILE at hle
  have hindex : r.toNat * 8 + c.toNat < 64 := by omega
  set i : Fin 64 := ⟨r.toNat * 8 + c.toNat, hindex⟩ with hi
  have hcol : ((i % 8 : Nat) : Int) = c := by
    show (((r.toNat * 8 + c.toNat) % 8 : Nat) : Int) = c
    omega
  have hrow : ((i / 8 : Nat) : Int) = r := by
    show (((r.toNat * 8 + c.toNat) / 8 : Nat) : Int) = r
    omega
  set url := http.makeUrl tile.style tile.z (metaFloor tile.x + c) (metaFloor tile.y + r) with hurl
  set served : String → Response := fun u => ⟨200, 1, if u = url then [0] else []⟩ with hserved
  have short : ∀ u, (served u).body.length ≤ 1 := by
    intro u
    show (if u = url then ([0] : Bytes) else []).length ≤ 1
    split <;> decide
  have hgrid : inGrid tile.z i = true := (inGrid_iff _ _).mpr ⟨hcol ▸ hc, hrow ▸ hr⟩
  have hbody : (http.slots served tile)[64 * 0 + (i : Nat)]? = _ :=
    getElem?_slots placed hfirst hgrid
  have hread := right.slot (fun _ => rfl) short hfirst hgrid hbody
  rw [hcol, hrow] at hread
  simp only [hserved, ← hurl, if_true, if_neg hne, List.length_nil, List.take_zero] at hread
  cases hread

/-- Where URLs tell the column and the row, only the metatiles of the diagonal may be exchanged. -/
theorem crossed_iff (hsize : 0 < size tile.z)
    (hurl : ∀ x y x' y', http.makeUrl tile.style tile.z x y = http.makeUrl tile.style tile.z x' y' →
      x = x' ∧ y = y') : http.Crossed tile ↔ metaFloor tile.x = metaFloor tile.y := by
  constructor
  · intro crossed
    have h := (hurl _ _ _ _ (crossed 0 0 (Int.le_refl 0) hsize (Int.le_refl 0) hsize)).2
    rwa [Int.add_zero, Int.add_zero] at h
  · intro h c r _ _ _ _
    rw [h]

/-- **What is always right is in place.** -/
theorem inPlace_of_alwaysRight (right : http.AlwaysRight tile data) : http.InPlace tile data := by
  by_cases hnone : getFormatsVec tile.format = []
  · exact .inl hnone
  by_cases hempty : size tile.z ≤ 0
  · exact .inr (.inl hempty)
  have hone := List.length_pos_iff.mpr hnone
  have hsize : 0 < size tile.z := not_le.mp hempty
  have hfirst := List.getElem?_eq_getElem hone
  have placed := right.placed hone hsize
  exact .inr (.inr ⟨right.data_eq_nil hfirst hsize, right.crossed hfirst placed, placed⟩)

/-- **A metatile from a tile server** is right, whatever the tiles are, exactly when it is in place.

The tiles of the server are any, with headers and bodies of less than 2^31 bytes together, and each
request is answered well. How the URLs are made is an argument. What becomes of a request that fails is
not part of this. -/
theorem alwaysRight_iff (http : SimpleHttpStorage) (tile : TileProtocol) (data : Bytes) :
    http.AlwaysRight tile data ↔ http.InPlace tile data :=
  ⟨inPlace_of_alwaysRight, fun place _ good fits => getsRight_of_inPlace good fits place⟩

/-- East of the first metatile, the tiles of the metatile to the south are fetched. -/
theorem fetches_other_metatile :
    ¬ ∀ (http : SimpleHttpStorage) (tile : TileProtocol) (data : Bytes) (served : String → Response),
      (∀ url, (served url).good = true) → http.Fits served tile →
      ∃ output, http.GetsRight served tile data output := by
  intro hall
  let http : SimpleHttpStorage :=
    ⟨fun style z x y => style ++ "/" ++ toString z ++ "/" ++ toString x ++ "/" ++ toString y⟩
  have hright : http.AlwaysRight { x := 8, z := 4, style := "osm" } [] :=
    hall http { x := 8, z := 4, style := "osm" } []
  have hurl := hright.crossed rfl (.inl rfl) 0 0 (by decide) (by decide) (by decide) (by decide)
  exact absurd hurl (by decide)

end Right

end SimpleHttpStorage

end RenderMq
