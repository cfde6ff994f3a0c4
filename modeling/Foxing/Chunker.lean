import Foxing.Lib.Bytes

/-!
# Content-defined chunking

A file is cut into chunks where a rolling hash of its bytes vanishes under a
mask, but not before the minimal and not after the maximal chunk length. The
chunks put together are the file, and none of them is longer than the maximum.
-/
namespace Foxing

structure GearChunker where
  min : ℕ
  avg : ℕ
  max : ℕ

/-- Two kilobytes, 64 kilobytes and two megabytes. -/
def GearChunker.default : GearChunker := ⟨2 * 1024, 64 * 1024, 2 * 1024 * 1024⟩

def gearTable : Array ℕ :=
  #[
    0x6b5ff8213c4ae15d, 0x3e2c4a5981fbd7c3, 0x9d17e3f0a26458b9, 0xc4a86b2fd9037e41,
    0x1f93d5a427c8b60e, 0x72e40b98cf561da3, 0xa51c83d7640f9eb2, 0x4de97a13b85c02f6,
    0x83761ed54ca9f0b8, 0x0ab462c19f7de384, 0xd648f5a730b91c2e, 0x5c019de3a8724fb6,
    0xe7ba3f84d215c60a, 0x29d5c4167eb380f9, 0xf1038a6d54e927cb, 0x68cfb1a2e374950d,
    0xb42ed78916fca053, 0x0d714e36c5a89bf2, 0x94ad23f5781cd0e6, 0x3f86cb17a9e0524d,
    0xe2107d93f4b6a8c1, 0x57c901a82de53f74, 0xab34e6c2809f1db7, 0x1ea7580dc3b496f2,
    0xc5f39a2167de0b48, 0x4018d7b5e2c9a36f, 0x86ac3f701d54e8b2, 0xd961c4a8f30b72e5,
    0x237ea5d1b8469fc0, 0x7cb210e96d3f5a84, 0xf5d48c36a1e70b29, 0x41a937cb58f2d6e0,
    0xba65fc128d07a493, 0x0e38b4d7c9a1526f, 0x97c2608a3e15fdb4, 0x5a0de1f3c478b926,
    0xc3917b25a0ec4d18, 0x2cd6a940f58713be, 0xf41b3e82d9c6a075, 0x6807d5c41ab92ef3,
    0xad734f96e201c8b5, 0x15be8a637dc4f021, 0x89e1c7d4026b3fa8, 0x34a612f5cb8970de,
    0xe75cd438916ab2c0, 0x50c3a9176ef4d58b, 0xbc295d80a3e147f6, 0x03f78e14d5b2c96a,
    0xcb84a3f61027de59, 0x4610dbc587f96a23, 0x91f526a8e4d30cb7, 0xdf42c51973b8ea04,
    0x27be9170a4d63cf8, 0x7a03e8d21fc5b946, 0xf5c83da642b1970e, 0x384d76c1ef025ab9,
    0xc916ab53d478e0f2, 0x14e2c087b9356da4, 0xa8bf31d452c07e19, 0x5d04f9283ea7c1b6,
    0xe2618db5c0f34a27, 0x2fb054c379e816da, 0x93c7ae190d64f285, 0x46da0372b5c18f9e,
    0xb1856fadc83204e7, 0x0c4ed2b1f697a358, 0x7923a8e54db0c1f6, 0xd4f61cb728a3950e,
    0x2a81e594f3d0467b, 0x67b30fc8a512de94, 0xfb48c261d7e930a5, 0x35d97a0e8cb4f123,
    0xce14b58361d7a9f0, 0x40afe8269d03cb57, 0x9d6324b1f0c57e8a, 0x58c091f7a43ed2b6,
    0xa27b4dc91586e0f3, 0x1fe630a4cb798d52, 0x8c59d7e2a41b063f, 0xd302a5f619e84cb7,
    0x27c4f831de90ba65, 0x7a186dbc43f50e29, 0xf6b5c20487da31e9, 0x4be139d75c06a8f2,
    0xb09c7ea3c1d45b28, 0x0d57a2e0f4b396c1, 0x82e3cb1439a0d7f5, 0xdf2650a9b7c4138e,
    0x369a8d472ce1f5b0, 0x7b04f1d285a63ec9, 0xf8c1a59360d72b4e, 0x45b62ef09dc871a3,
    0xbd73c4180a5fe962, 0x01e83fb5c297d4a6, 0x9e54d06178bca3f2, 0xd2a91784cb305fe6,
    0x2c16e5b3a0498df7, 0x73dba8265cf140b9, 0xfa0731c4e8bd926e, 0x46c29f5813d7a4b0,
    0xbe8d5a017c43e6f9, 0x05f4c7b3da21908e, 0x8b310ed6a5f84c27, 0xd7e692401cb3f5a8,
    0x2179abd5e8043c6f, 0x7e0468b1c3d9f527, 0xf2b5d34a810e67c9, 0x4ca81f9756e2b0d3,
    0xa163c4e02db8f975, 0x1dbe70a3f9458c21, 0x894cd517a3e02fb6, 0xd600a9287fb4c3e1,
    0x23d78e45b1c60af9, 0x78abf2139cd06e47, 0xf43e2db6c581a709, 0x4b91c0d837a4fe62,
    0xb25479a1e06c1db3, 0x0fc3e68754a9b2d0, 0x9618ad34c2f7605b, 0xdb754a021fc893e6,
    0x24c1f59a8d3670eb, 0x79860bd3e4a2cf18, 0xf10ac8453b67d29e, 0x4ed731b9a0fc5624,
    0xa3429c06d8b1ef73, 0x1ab5e0d4637928cf, 0x876c24f1bea5d038, 0xd4935b1702cea6f9,
    0x21e8b7c0f43d5a96, 0x7e5f03a4c912d8b3, 0xf2c46e3185a70bd9, 0x4db19258c3f6ae04,
    0xaa76cd8310495fb2, 0x150381bfe7d4a2c6, 0x88d4ae625b07f139, 0xd62943b590ec78a1,
    0x239ef7c04db12a68, 0x7c415a92e3b80fd4, 0xf0b2c637a90581de, 0x45e739d41cbaf628,
    0xb91c8da06743e5f1, 0x06a3f278db14c905, 0x9250b4e13dc70fa6, 0xdf876123a4e9cb50,
    0x2a1cd5f680b34e97, 0x75e0a849c3271fb6, 0xf39b0c24d6e57a81, 0x4856d1b32fa0c7e9,
    0xbc2d9fe4a1783065, 0x01e4738b5dc6a9f2, 0x8d97b250c41e6fa3, 0xd06a2e85f1c394b7,
    0x2cb1d7048e6953fa, 0x7f46a8c132bde019, 0xf3d2140bc5a6789e, 0x4e096ba7d8f3c251,
    0xab84c3f01d2795e6, 0x1671ae52c0984bf3, 0x8a2df58467b1c039, 0xd5c03916a2fd8e74,
    0x28a7e4d35b10cf69, 0x7d5301bec8a42f96, 0xf1e8bc473d65a20d, 0x4c345f92e0b7d1a8,
    0xb0c9a2167d4ef853, 0x0512dc83a9b0674f, 0x99e67014c253bda8, 0xd42ba5f08e9731c6,
    0x2794c831d5be0af7, 0x7ae13f0682c459d3, 0xf6bcd2451e73a0b9, 0x4308a7b9c561dfe2,
    0xbd51e4603a987cf1, 0x02c689f3e7a4b510, 0x8e7db42851c03fa9, 0xd1a067b52cf4e893,
    0x2e3fc1d0b58649a7, 0x7b824ea3c0d9f715, 0xf715930c4ea2d8b3, 0x42c8b6a1d3507fe9,
    0xaf540d3891e7c2b6, 0x1429e8c5a6f37d01, 0x87e351b6dc0a4f98, 0xd0962c43f5b8a1e7,
    0x2b41f7908ced3a56, 0x76d8a025e1b4cf93, 0xfaed34815726b0c9, 0x4f12c9b7a3d06e85,
    0xb3a75e04c819df62, 0x0e6cd1a23fb58740, 0x928b47e1d0f36ca5, 0xde50bc3614a987f2,
    0x23c5f0496dbe2a18, 0x7e983ad6c1045fb1, 0xf201c78b9ed3a465, 0x4f74152ca3b8e9d0,
    0xa4e9b86317c05df2, 0x11364db7e29a08c5, 0x8dc2a0e45b17f639, 0xd05f31b2ce84a976,
    0x2d84e6c7a3205fb1, 0x70139ba4dc6782e5, 0xfca8d45103b92e7f, 0x49650fc8b7e2a134,
    0xb5dac2036e184fb7, 0x02417db6a5c3f809, 0x9ebca061c834d5f2, 0xd3f7529c01e6ba48,
    0x260cbf2194d53ea7, 0x7b93e8a4c0721d5f, 0xf7c8461d3ba590e2, 0x42a1d370e50cbf69,
    0xbe5c0f8b7a43d296, 0x0327c4e6d1b8a5f0, 0x8f60b93254cde1a7, 0xdc15ae03b8974c62,
    0x21a873d50fc4e2b9, 0x7cd4e092b3185fa6, 0xf06b2dc184e9a735, 0x4d92c1b467a308fe,
    0xa24756e01bcd9f83, 0x1fb08d13c429e5a7, 0x83c5f420e9761adb, 0xde0831a7b2c45f96,
    0x2a9de6540cb173f8, 0x7760b9c3f1dea402, 0xfb1548a63dc0927e, 0x46c20f718ab5e3d9,
    0xba97d438c5016eaf, 0x054ea1c7f8d23b60, 0x99f36c802db7a5e4, 0xd420b5f1c3689a27,
    0x2dbc4a06e5f173c9, 0x7845f3c20abde691, 0xf4d18e37c962ab05, 0x4106c2a4b5d83f7e,
    0xad7b3058e4c91fa6, 0x12e4cd817ba05643, 0x8e59a4b20fc731d8, 0xd3801fc5e2b6a749,
    0x2a6fe3c81594bd07, 0x75b40a91c8d63fe2, 0xf9c35d2487b0a16e, 0x4618a2d73bcf9058,
    0xb087c4f1d2596ea3, 0x0b5e91a367c4d8f2, 0x964db0e8c1237fa5, 0xd1a23f758ec0b469,
    0x2e89c416f5d3a0b7, 0x73f05b8429e6cd13, 0xfc47d2a1b0385e96, 0x410c8fb3e7a5d248,
    0xbe93d714a2685fc0, 0x05a841c6f3bd927e, 0x9c74e0b25d31a8f6, 0xd1bf56a083c47e29
  ]

namespace GearChunker
variable (c : GearChunker)

/-- The loop over the bytes from position `i` on, for a chunk that has begun at `start`. -/
def boundariesFrom : ℕ → ℕ → ℕ → Bytes → List ℕ
  | i, start, _, [] => if start < i then [i] else []
  | i, start, hash, b :: bs =>
    let hash := (2 * hash + gearTable.getD b.val 0) % 2 ^ 64
    let chunkLen := i - start + 1
    if chunkLen ≥ c.min ∧ (hash &&& (c.avg - 1) = 0 ∨ chunkLen ≥ c.max) then
      (i + 1) :: boundariesFrom (i + 1) (i + 1) 0 bs
    else boundariesFrom (i + 1) start hash bs

def findBoundaries (data : Bytes) : List ℕ := c.boundariesFrom 0 0 0 data

end GearChunker

/-- The slices of the data that end at the boundaries. -/
def slicesFrom (data : Bytes) : ℕ → List ℕ → List Bytes
  | _, [] => []
  | start, stop :: stops => (data.drop start).take (stop - start) :: slicesFrom data stop stops

def GearChunker.chunks (c : GearChunker) (data : Bytes) : List Bytes :=
  slicesFrom data 0 (c.findBoundaries data)

namespace GearChunker
variable (c : GearChunker) {data : Bytes}

/-- The slices from the beginning of the current chunk on put together what is left
of the data, and none is longer than the maximum. -/
theorem slicesFrom_boundariesFrom (hmax : c.min ≤ c.max) (pre bs : Bytes) (start hash : ℕ)
    (hstart : start ≤ pre.length) (hlen : pre.length - start < c.max) :
    (slicesFrom (pre ++ bs) start (c.boundariesFrom pre.length start hash bs)).flatten =
        (pre ++ bs).drop start ∧
      ∀ chunk ∈ slicesFrom (pre ++ bs) start (c.boundariesFrom pre.length start hash bs),
        chunk.length ≤ c.max := by
  induction bs generalizing pre start hash with
  | nil =>
    rw [boundariesFrom]
    split_ifs with h
    · simp only [slicesFrom, List.append_nil, List.flatten_cons, List.flatten_nil,
        List.mem_singleton, forall_eq]
      constructor
      · exact List.take_of_length_le (by simp)
      · rw [List.length_take]
        omega
    · have heq : start = pre.length := by omega
      simp [slicesFrom, heq]
  | cons b bs ih =>
    have hsplit : pre ++ b :: bs = (pre ++ [b]) ++ bs := by simp
    have hnext : (pre ++ [b]).length = pre.length + 1 := by simp
    rw [boundariesFrom]
    split_ifs with h
    · have hcut := ih (pre ++ [b]) (pre.length + 1) 0 (by simp) (by rw [hnext]; omega)
      rw [hnext, ← hsplit] at hcut
      rw [slicesFrom, List.flatten_cons, hcut.1]
      constructor
      · have hjoin := List.take_append_drop (pre.length + 1 - start) ((pre ++ b :: bs).drop start)
        rw [List.drop_drop, show start + (pre.length + 1 - start) = pre.length + 1 by omega] at hjoin
        exact hjoin
      · intro chunk hchunk
        rcases List.mem_cons.mp hchunk with rfl | hmem
        · rw [List.length_take]
          omega
        · exact hcut.2 chunk hmem
    · have hshort : pre.length - start + 1 < c.max := by omega
      have hgo := ih (pre ++ [b]) start ((2 * hash + gearTable.getD b.val 0) % 2 ^ 64)
        (by rw [hnext]; omega) (by rw [hnext]; omega)
      rw [hnext, ← hsplit] at hgo
      exact hgo

/-- The chunks put together are the data. -/
theorem flatten_chunks (h : c.min ≤ c.max) (hpos : 0 < c.max) (data : Bytes) :
    (c.chunks data).flatten = data := by
  have hrun := (c.slicesFrom_boundariesFrom h [] data 0 0 (by simp) (by simpa using hpos)).1
  simpa [chunks, findBoundaries] using hrun

theorem length_le_of_mem_chunks (h : c.min ≤ c.max) (hpos : 0 < c.max) {chunk : Bytes}
    (hmem : chunk ∈ c.chunks data) : chunk.length ≤ c.max := by
  have hrun := (c.slicesFrom_boundariesFrom h [] data 0 0 (by simp) (by simpa using hpos)).2
  exact hrun chunk (by simpa [chunks, findBoundaries] using hmem)

end GearChunker

end Foxing
