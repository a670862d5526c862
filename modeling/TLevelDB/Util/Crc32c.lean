import TLevelDB.Log.Format

/-!
# The checksum in strides

`crc32c::Extend` without hardware support. A table lets it handle a byte at a time. Where there
are 16 bytes or more it keeps four registers, each of which takes every fourth word: it is moved
over 16 bytes with four tables, and takes a word. In the end the registers are put together. Words
are read from addresses that are multiples of 4, up to the first of which it goes byte by byte.

All of this works because shifting is linear in exclusive or (`Linear`): a register is moved
over the words of the others without looking at them. What the registers stand for is the
checksum of the bytes so far (`Strides.combined`).
-/

namespace TLevelDB.Crc32c

open Log (crcBit nextByte takeByte kCRC32Xor crc32c crc32c_append decodeFixed32)

/-! ### `Extend` -/

/-- The words of a table that is written in rows of eight. -/
def ofRows (rows : List ℕ) : List UInt32 :=
  rows.flatMap fun row => [7, 6, 5, 4, 3, 2, 1, 0].map fun i => UInt32.ofNat (row / 2 ^ (32 * i))

def kByteExtensionTable : List UInt32 := ofRows [
  0x00000000f26b8303e13b70f71350f3f4c79a971f35f1141c26a1e7e8d4ca64eb,
  0x8ad958cf78b2dbcc6be228389989ab3b4d43cfd0bf284cd3ac78bf275e133c24,
  0x105ec76fe235446cf165b798030e349bd7c4507025afd37336ff2087c494a384,
  0x9a879fa068ec1ca37bbcef5789d76c545d1d08bfaf768bbcbc2678484e4dfb4b,
  0x20bd8eded2d60dddc186fe2933ed7d2ae72719c1154c9ac2061c6936f477ea35,
  0xaa64d611580f55124b5fa6e6b93425e56dfe410e9f95c20d8cc531f97eaeb2fa,
  0x30e349b1c288cab2d1d8394623b3ba45f779deae05125dad1642ae59e4292d5a,
  0xba3a117e4851927d5b016189a96ae28a7da086618fcb05629c9bf6966ef07595,
  0x417b1dbcb3109ebfa0406d4b522bee4886e18aa3748a09a067dafa5495b17957,
  0xcba2457339c9c6702a993584d8f2b6870c38d26cfe53516fed03a29b1f682198,
  0x5125dad3a34e59d0b01eaa244275292796bf4dcc64d4cecf77843d3b85efbe38,
  0xdbfc821c2997011f3ac7f2ebc8ac71e81c661503ee0d9600fd5d65f40f36e6f7,
  0x61c6936293ad106180fde39572966096a65c047d5437877e4767748ab50cf789,
  0xeb1fcbad197448ae0a24bb5af84f38592c855cb2deeedfb1cdbe2c453fd5af46,
  0x7198540d83f3d70e90a324fa62c8a7f9b602c312446940115739b3e5a55230e6,
  0xfb410cc2092a8fc11a7a7c35e811ff363cdb9bddceb018dedde0eb2a2f8b6829,
  0x82f63b78709db87b63cd4b8f91a6c88c456cac67b7072f64a457dc90563c5f93,
  0x082f63b7fa44e0b4e91413401b7f9043cfb5f4a83dde77ab2e8e845fdce5075c,
  0x92a8fc1760c37f1473938ce081f80fe355326b08a759e80bb4091bff466298fc,
  0x1871a4d8ea1a27dbf94ad42f0b21572cdfeb33c72d80b0c43ed04330ccbbc033,
  0xa24bb5a6502036a54370c551b11b465265d122b997baa1ba84ea524e7681d14d,
  0x2892ed69daf96e6ac9a99d9e3bc21e9def087a761d63f9750e330a81fc588982,
  0xb21572c9407ef1ca532e023ea145813d758fe5d687e466d594b4952166df1622,
  0x38cc2a06caa7a905d9f75af12b9cd9f2ff56bd190d3d3e1a1e6dcdeeec064eed,
  0xc38d26c431e6a5c722b65633d0ddd5300417b1dbf67c32d8e52cc12c1747422f,
  0x49547e0bbb3ffd08a86f0efc5a048dff8ecee9147ca56a176ff599e39d9e1ae0,
  0xd3d3e1ab21b862a832e8915cc083125f144976b4e622f5b7f572064307198540,
  0x590ab964ab613a67b831c9934a5a4a909e902e7b6cfbad787fab5e8c8dc0dd8f,
  0xe330a81a115b2b19020bd8edf0605bee24aa3f05d6c1bc06c5914ff237faccf1,
  0x69e9f0d59b8273d688d280227ab90321ae7367ca5c18e4c94f48173dbd23943e,
  0xf36e6f750105ec7612551f82e03e9c8134f4f86ac69f7b69d5cf889d27a40b9e,
  0x79b737ba8bdcb4b9988c474d6ae7c44ebe2da0a54c4623a65f16d052ad7d5351]

def kStrideExtensionTable0 : List UInt32 := ofRows [
  0x0000000030d2386561a470ca517648afc348e194f39ad9f1a2ec915e923ea93b,
  0x837db5d9b3af8dbce2d9c513d20bfd764035544d70e76c282191248711431ce2,
  0x03171d4333c5252662b36d89526155ecc05ffcd7f08dc4b2a1fb8c1d9129b478,
  0x806aa89ab0b890ffe1ced850d11ce0354322490e73f0716b228639c4125401a1,
  0x062e3a8636fc02e3678a4a4c57587229c566db12f5b4e377a4c2abd8941093bd,
  0x85538f5fb581b73ae4f7ff95d425c7f0461b6ecb76c956ae27bf1e01176d2664,
  0x053927c535eb1fa0649d570f544f6f6ac671c651f6a3fe34a7d5b69b97078efe,
  0x8644921cb696aa79e7e0e2d6d732dab3450c738875de4bed24a80342147a3b27,
  0x0c5c750c3c8e4d696df805c65d2a3da3cf149498ffc6acfdaeb0e4529e62dc37,
  0x8f21c0d5bff3f8b0ee85b01fde57887a4c6921417cbb19242dcd518b1d1f69ee,
  0x0f4b684f3f99502a6eef18855e3d20e0cc0389dbfcd1b1beada7f9119d75c174,
  0x8c36dd96bce4e5f3ed92ad5cdd4095394f7e3c027fac04672eda4cc81e0874ad,
  0x0a724f8a3aa077ef6bd63f405b040725c93aae1ef9e8967ba89eded4984ce6b1,
  0x890ffa53b9ddc236e8ab8a99d879b2fc4a471bc77a9523a22be36b0d1b315368,
  0x096552c939b76aac68c1220358131a66ca2db35dfaff8b38ab89c3979b5bfbf2,
  0x8a18e710bacadf75ebbc97dadb6eafbf4950068479823ee128f4764e18264e2b,
  0x18b8ea18286ad27d791c9ad249cea2b7dbf00b8ceb2233e9ba547b468a864323,
  0x9bc55fc1ab1767a4fa612f0bcab3176e588dbe55685f86303929ce9f09fbf6fa,
  0x1baff75b2b7dcf3e7a0b87914ad9bff4d8e716cfe8352eaab943660589915e60,
  0x98d24282a8007ae7f9763248c9a40a2d5b9aa3166b489b733a3ed3dc0aecebb9,
  0x1e96d09e2e44e8fb7f32a0544fe09831ddde310aed0c096fbc7a41c08ca879a5,
  0x9deb6547ad395d22fc4f158dcc9d2de85ea384d36e71bcb63f07f4190fd5cc7c,
  0x1d81cddd2d53f5b87c25bd174cf78572dec92c49ee1b142cbf6d5c838fbf64e6,
  0x9efc7804ae2e4061ff5808cecf8a30ab5db499906d66a1f53c10e95a0cc2d13f,
  0x14e49f142436a7717540efde4592d7bbd7ac7e80e77e46e5b6080e4a86da362f,
  0x97992acda74b12a8f63d5a07c6ef626254d1cb596403f33c3575bb9305a783f6,
  0x17f382572721ba327657f29d4685caf8d4bb63c3e4695ba6b51f130985cd2b6c,
  0x948e378ea45c0febf52a4744c5f87f2157c6d61a6714ee7f3662a6d006b09eb5,
  0x12caa59222189df7736ed55843bced3dd1824406e1507c63b02634cc80f40ca9,
  0x91b7104ba165282ef0136081c0c158e452fff1df622dc9ba335b81150389b970,
  0x11ddb8d1210f80b47079c81b40abf07ed2955945e2476120b331298f83e311ea,
  0x92a00d08a272356df3047dc2c3d645a751e8ec9c613ad4f9304c9c56009ea433]

def kStrideExtensionTable1 : List UInt32 := ofRows [
  0x0000000054075546a80eaa8cfc09ffca55f123e901f676affdff8965a9f8dc23,
  0xabe247d2ffe5129403eced5e57ebb818fe13643baa14317d561dceb7021a9bf1,
  0x5228f955062fac13fa2653d9ae21069f07d9dabc53de8ffaafd77030fbd02576,
  0xf9cabe87adcdebc151c4140b05c3414dac3b9d6ef83cc828043537e2503262a4,
  0xa451f2aaf056a7ec0c5f582658580d60f1a0d143a5a7840559ae7bcf0da92e89,
  0x0fb3b5785bb4e03ea7bd1ff4f3ba4ab25a4296910e45c3d7f24c3c1da64b695b,
  0xf6790bffa27e5eb95e77a1730a70f435a3882816f78f7d500b86829a5f81d7dc,
  0x5d9b4c2d099c196bf595e6a1a192b3e7086a6fc45c6d3a82a064c548f463900e,
  0x4d4f93a51948c6e3e5413929b1466c6f18beb04c4cb9e50ab0b01ac0e4b74f86,
  0xe6add477b2aa81314ea37efb1aa42bbdb35cf79ee75ba2d81b525d124f550854,
  0x1f676af04b603fb6b769c07ce36e953a4a9649191e911c5fe298e395b69fb6d3,
  0xb4852d22e08278641c8b87ae488cd2e8e1740ecbb5735b8d497aa4471d7df101,
  0xe91e610fbd1934494110cb8315179ec5bcef42e6e8e817a014e1e86a40e6bd2c,
  0x42fc26dd16fb739beaf28c51bef5d917170d0534430a5072bf03afb8eb04fafe,
  0xbb36985aef31cd1c133832d6473f6790eec7bbb3bac0eef546c9113f12ce4479,
  0x10d4df8844d38aceb8da7504ecdd20424525fc611122a927ed2b56edb92c03ab,
  0x9a9f274ace98720c32918dc66696d880cf6e04a39b6951e56760ae2f3367fb69,
  0x317d6098657a35de9973ca14cd749f52648c4371308b1637cc82e9fd9885bcbb,
  0xc8b7de1f9cb08b5960b9749334be21d59d46fdf6c941a8b03548577a614f023c,
  0x635599cd3752cc8bcb5b33419f5c660736a4ba2462a3ef629eaa10a8caad45ee,
  0x3eced5e06ac980a696c07f6cc2c72a2a6b3ff6093f38a34fc3315c85973609c3,
  0x952c9232c12bc7743d2238be69256df8c0ddb1db94dae49d68d31b573cd44e11,
  0x6ce62cb538e179f3c4e8863990efd37f39170f5c6d105a1a9119a5d0c51ef096,
  0xc7046b6793033e216f0ac1eb3b0d94ad92f5488ec6f21dc83afbe2026efcb744,
  0xd7d0b4ef83d7e1a97fde1e632bd94b2582219706d626c2402a2f3d8a7e2868cc,
  0x7c32f33d2835a67bd43c59b1803b0cf729c3d0d47dc4859281cd7a58d5ca2f1e,
  0x85f84dbad1ff18fc2df6e73679f1b270d0096e53840e3b157807c4df2c009199,
  0x2e1a0a687a1d5f2e8614a0e4d213f5a27beb29812fec7cc7d3e5830d87e2d64b,
  0x7381464527861303db8fecc98f88b98f267065ac727730ea8e7ecf20da799a66,
  0xd86301978c6454d1706dab1b246afe5d8d92227ed9957738259c88f2719bddb4,
  0x21a9bf1075aeea5689a7159cdda040da74589cf9205fc9bfdc56367588516333,
  0x8a4bf8c2de4cad842245524e76420708dfbadb2b8bbd8e6d77b471a723b324e1]

def kStrideExtensionTable2 : List UInt32 := ofRows [
  0x00000000678efd01cf1dfa02a89307039bd782f5fc597ff454ca78f7334485f6,
  0x3243731b55cd8e1afd5e89199ad07418a994f1eece1a0cef66890bec0107f6ed,
  0x6486e63603081b37ab9b1c34cc15e135ff5164c398df99c2304c9ec157c263c0,
  0x56c5952d314b682c99d86f2ffe56922ecd1217d8aa9cead9020fedda658110db,
  0xc90dcc6cae83316d0610366e619ecb6f52da4e993554b3989dc7b49bfa49499a,
  0xfb4ebf779cc042763453457553ddb87460993d820717c083af84c780c80a3a81,
  0xad8b2a5aca05d75b6296d05805182d59365ca8af51d255aef94152ad9ecfafac,
  0x9fc85941f846a44050d5a343375b5e42041fdbb4639126b5cb0221b6ac8cdcb7,
  0x97f7ee29f079132858ea142b3f64e92a0c206cdc6bae91ddc33d96dea4b36bdf,
  0xa5b49d32c23a60336aa967300d279a313e631fc759ede2c6f17ee5c596f018c4,
  0xf371081f94fff51e3c6cf21d5be20f1c68a68aea0f2877eba7bb70e8c0358de9,
  0xc1327b04a6bc86050e2f810669a17c075ae5f9f13d6b04f095f803f3f276fef2,
  0x5efa22453974df4491e7d847f6692546c52da0b0a2a35db10a305ab26dbea7b3,
  0x6cb9515e0b37ac5fa3a4ab5cc42a565df76ed3ab90e02eaa387329a95ffdd4a8,
  0x3a7cc4735df23972f5613e7192efc370a1ab4686c625bb876eb6bc8409384185,
  0x083fb7686fb14a69c7224d6aa0acb06b93e8359df466c89c5cf5cf9f3b7b329e,
  0x2a03aaa34d8d57a2e51e50a18290ada0b1d42856d65ad5577ec9d25419472f55,
  0x1840d9b87fce24b9d75d23bab0d3debb83975b4de419a64c4c8aa14f2b045c4e,
  0x4e854c95290bb1948198b697e6164b96d552ce60b2dc33611a4f34627dc1c963,
  0x7cc63f8e1b48c28fb3dbc58cd455388de711bd7b809f407a280c47794f82ba78,
  0xe30e66cf84809bce2c139ccd4b9d61cc78d9e43a1f57193bb7c41e38d04ae339,
  0xd14d15d4b6c3e8d51e50efd679de12d74a9a97212d146a2085876d23e2099022,
  0x878880f9e0067df848957afb2f1b87fa1c5f020c7bd1ff0dd342f80eb4cc050f,
  0xb5cbf3e2d2450ee37ad609e01d58f4e12e1c711749928c16e1018b15868f7614,
  0xbdf4448ada7ab98b72e9be88156743892623c67f41ad3b7ee93e3c7d8eb0c17c,
  0x8fb73791e839ca9040aacd93272430921460b56473ee4865db7d4f66bcf3b267,
  0xd972a2bcbefc5fbd166f58be71e1a5bf42a52049252bdd488db8da4bea36274a,
  0xeb31d1a78cbf2ca6242c2ba543a2d6a470e653521768ae53bffba950d8755451,
  0x74f988e6137775e7bbe472e4dc6a8fe5ef2e0a1388a0f7122033f01147bd0d10,
  0x46bafbfd213406fc89a701ffee29fcfedd6d7908bae384091270830a75fe7e0b,
  0x107f6ed077f193d1df6294d2b8ec69d38ba8ec25ec26112444b51627233beb26,
  0x223c1dcb45b2e0caed21e7c98aaf1ac8b9eb9f3ede65623f76f6653c1178983d]

def kStrideExtensionTable3 : List UInt32 := ofRows [
  0x00000000f20c0dfee1f46d0d13f860f3c604aceb3408a11527f0c1e6d5fccc18,
  0x89e52f277be922d96811422a9a1d4fd44fe183ccbded8e32ae15eec15c19e33f,
  0x162628bfe42a2541f7d245b205de484cd0228454222e89aa31d6e959c3dae4a7,
  0x9fc307986dcf0a667e376a958c3b676b59c7ab73abcba68db833c67e4a3fcb80,
  0x2c4c517ede405c80cdb83c733fb4318dea48fd951844f06b0bbc9098f9b09d66,
  0xa5a97e5957a573a7445d1354b6511eaa63add2b291a1df4c8259bfbf7055b241,
  0x3a6a79c1c866743fdb9e14cc29921932fc6ed52a0e62d8d41d9ab827ef96b5d9,
  0xb38f56e641835b18527b3beba0773615758bfa0d8787f7f3947f970066739afe,
  0x5898a2fcaa94af02b96ccff14b60c20f9e9c0e176c9003e97f68631a8d646ee4,
  0xd17d8ddb237180253089e0d6c285ed2817792130e5752ccef68d4c3d048141c3,
  0x4ebe8a43bcb287bdaf4ae74e5d46eab088ba26a87ab62b56694e4ba59b42465b,
  0xc75ba5643557a89a26afc869d4a3c597015f098ff3530471e0ab648212a7697c,
  0x74d4f38286d8fe7c95209e8f672c9371b2d05f6940dc529753243264a1283f9a,
  0xfd31dca50f3dd15b1cc5b1a8eec9bc563b35704ec9397db0dac11d4328cd10bd,
  0x62f2db3d90fed6c38306b630710abbcea4f677d656fa7a2845021adbb70e1725,
  0xeb17f41a191bf9e40ae39917f8ef94e92d1358f1df1f550fcce735fc3eeb3802,
  0xb13145f8433d480650c528f5a2c9250b7735e9138539e4ed96c1841e64cd89e0,
  0x38d46adfcad86721d92007d22b2c0a2cfed0c6340cdccbca1f24ab39ed28a6c7,
  0xa7176d47551b60b946e3004ab4ef0db46113c1ac931fcc5280e7aca172eba15f,
  0x2ef24260dcfe4f9ecf062f6d3d0a2293e8f6ee8b1afae37509028386fb0e8e78,
  0x9d7d14866f7119787c89798b8e8574755b79b86da975b593ba8dd5604881d89e,
  0x14983ba1e694365ff56c56ac07605b52d29c974a20909ab43368fa47c164f7b9,
  0x8b5b3c39795731c76aaf513498a35cca4d5f90d2bf539d2cacabfddf5ea7f021,
  0x02be131ef0b21ee0e34a7e13114673edc4babff536b6b20b254ed2f8d742df06,
  0xe9a9e7041ba5eafa085d8a09fa5187f72fad4befdda14611ce5926e23c552b1c,
  0x604cc8239240c5dd81b8a52e73b4a8d0a64864c85444693647bc09c5b5b0043b,
  0xff8fcfbb0d83c2451e7ba2b6ec77af48398b6350cb876eaed87f0e5d2a7303a3,
  0x766ae09c8466ed62979e8d916592806fb06e4c7742624189519a217aa3962c84,
  0xc5e5b67a37e9bb842411db77d61dd68903e11a91f1ed176fe215779c10197a62,
  0x4c00995dbe0c94a3adf4f4505ff8f9ae8a0435b6780838486bf058bb99fc5545,
  0xd3c39ec521cf933b3237f3c8c03bfe3615c7322ee7cb3fd0f4335f23063f52dd,
  0x5a26b1e2a82abc1cbbd2dcef49ded1119c221d096e2e10f77dd670048fda7dfa]

/-- An entry of a table. -/
def entry (table : List UInt32) (c : UInt32) : UInt32 := table.getD c.toNat 0

def step1 (l : UInt32) (b : UInt8) : UInt32 := entry kByteExtensionTable ((l &&& 0xff) ^^^ b.toUInt32) ^^^ (l >>> 8)

/-- `STEP4`, for a register and the word at its place. -/
def step4 (crc word : UInt32) : UInt32 :=
  word ^^^ entry kStrideExtensionTable3 (crc &&& 0xff) ^^^ entry kStrideExtensionTable2 ((crc >>> 8) &&& 0xff) ^^^
    entry kStrideExtensionTable1 ((crc >>> 16) &&& 0xff) ^^^ entry kStrideExtensionTable0 (crc >>> 24)

/-- One turn of the loop of `STEP4W`. -/
def shiftWord (w : UInt32) : UInt32 := (w >>> 8) ^^^ entry kByteExtensionTable (w &&& 0xff)

def step4W (l w : UInt32) : UInt32 := shiftWord^[4] (w ^^^ l)

def readUint32LE (p : List UInt8) : UInt32 := decodeFixed32 p

/-- The registers. -/
structure Strides where
  crc0 : UInt32
  crc1 : UInt32
  crc2 : UInt32
  crc3 : UInt32

namespace Strides

def step16 (s : Strides) (p : List UInt8) : Strides where
  crc0 := step4 s.crc0 (readUint32LE p)
  crc1 := step4 s.crc1 (readUint32LE (p.drop 4))
  crc2 := step4 s.crc2 (readUint32LE (p.drop 8))
  crc3 := step4 s.crc3 (readUint32LE (p.drop 12))

/-- The loop over swaths of 16 bytes. -/
def swaths (s : Strides) (p : List UInt8) : Strides × List UInt8 :=
  if 16 ≤ p.length then swaths (s.step16 p) (p.drop 16) else (s, p)
termination_by p.length

/-- The loop over words, where the registers change their places. -/
def words (s : Strides) (p : List UInt8) : Strides × List UInt8 :=
  if 4 ≤ p.length then words ⟨s.crc1, s.crc2, s.crc3, step4 s.crc0 (readUint32LE p)⟩ (p.drop 4) else (s, p)
termination_by p.length

/-- The registers put together. -/
def combine (s : Strides) : UInt32 := step4W (step4W (step4W (step4W 0 s.crc0) s.crc1) s.crc2) s.crc3

end Strides

/-- The part of `Extend` for 16 bytes and more, and the bytes that it leaves. -/
def extendStrides (l : UInt32) (p : List UInt8) : UInt32 × List UInt8 :=
  let s : Strides :=
    ⟨readUint32LE p ^^^ l, readUint32LE (p.drop 4), readUint32LE (p.drop 8), readUint32LE (p.drop 12)⟩
  let (s, p) := s.swaths (p.drop 16)
  let (s, p) := s.words p
  (s.combine, p)

/-- `RoundUp<N>`. -/
def roundUp (n pointer : ℕ) : ℕ := (pointer + (n - 1)) / n * n

/-- `crc32c::Extend`, where the string is at the address `pointer`. -/
def extend (crc : UInt32) (pointer : ℕ) (data : List UInt8) : UInt32 :=
  let l := crc ^^^ kCRC32Xor
  let skip := roundUp 4 pointer - pointer
  let (l, p) := if skip ≤ data.length then ((data.take skip).foldl step1 l, data.drop skip) else (l, data)
  let (l, p) := if 16 ≤ p.length then extendStrides l p else (l, p)
  p.foldl step1 l ^^^ kCRC32Xor

/-! ### Linearity -/

/-- The function commutes with exclusive or. -/
def Linear (g : UInt32 → UInt32) : Prop := ∀ a b, g (a ^^^ b) = g a ^^^ g b

variable {g : UInt32 → UInt32} {m : ℕ} {p : List UInt8}

theorem Linear.zero (h : Linear g) : g 0 = 0 := by
  simpa using h 0 0

theorem Linear.iterate (h : Linear g) (n : ℕ) : Linear g^[n] := by
  induction n with
  | zero => exact fun _ _ => rfl
  | succ n ih =>
    intro a b
    rw [Function.iterate_succ_apply, h, ih, Function.iterate_succ_apply, Function.iterate_succ_apply]

theorem and_one_eq_one_iff (l : UInt32) : l &&& 1 = 1 ↔ l.toBitVec.getLsbD 0 = true := by
  rw [← UInt32.toBitVec_inj, UInt32.toBitVec_and]
  show l.toBitVec &&& 1#32 = 1#32 ↔ _
  rw [BitVec.and_one_eq_setWidth_ofBool_getLsbD]
  cases l.toBitVec.getLsbD 0 <;> decide

theorem linear_crcBit : Linear crcBit := by
  have heq : ∀ l, crcBit l = (l >>> 1) ^^^ if l.toBitVec.getLsbD 0 then 0x82f63b78 else 0 := by
    intro l
    simp only [crcBit, and_one_eq_one_iff]
    split_ifs <;> simp
  intro a b
  rw [heq, heq a, heq b, UInt32.shiftRight_xor, UInt32.toBitVec_xor, BitVec.getLsbD_xor]
  cases a.toBitVec.getLsbD 0 <;> cases b.toBitVec.getLsbD 0
  · simp
  · simp [UInt32.xor_assoc]
  · simp only [Bool.xor_false, if_true, Bool.false_eq_true, if_false, UInt32.xor_zero]
    ac_rfl
  · simp only [Bool.xor_true, Bool.not_true, Bool.false_eq_true, if_false, if_true, UInt32.xor_zero]
    rw [UInt32.xor_comm (b >>> 1), UInt32.xor_assoc, ← UInt32.xor_assoc 0x82f63b78, UInt32.xor_self, UInt32.zero_xor]

theorem linear_nextByte : Linear nextByte := linear_crcBit.iterate 8

/-- Zeros are shifted out. -/
theorem toNat_crcBit_iterate {l : UInt32} {n : ℕ} (h : l.toNat = 2 ^ n * m) : (crcBit^[n] l).toNat = m := by
  induction n generalizing l with
  | zero => simpa using h
  | succ n ih =>
    have hl : l.toNat = 2 * (2 ^ n * m) := by rw [h, pow_succ', Nat.mul_assoc]
    have hlow : ¬ l.toBitVec.getLsbD 0 = true := by
      rw [BitVec.getLsbD, UInt32.toNat_toBitVec, hl]
      simp
    rw [Function.iterate_succ_apply, ih]
    rw [crcBit, if_neg (mt (and_one_eq_one_iff l).mp hlow), UInt32.toNat_shiftRight, hl, Nat.shiftRight_eq_div_pow]
    exact Nat.mul_div_cancel_left _ Nat.two_pos

theorem nextByte_ofNat (h : m < 2 ^ 24) : nextByte (UInt32.ofNat (2 ^ 8 * m)) = UInt32.ofNat m := by
  have hnat : (UInt32.ofNat (2 ^ 8 * m)).toNat = 2 ^ 8 * m := by rw [UInt32.toNat_ofNat']; omega
  apply UInt32.toNat.inj
  rw [nextByte, toNat_crcBit_iterate hnat, UInt32.toNat_ofNat']
  omega

/-- A word is its low bits and the rest. -/
theorem ofNat_add {c k : ℕ} (hc : c < 2 ^ k) : UInt32.ofNat (c + 2 ^ k * m) = UInt32.ofNat c ^^^ UInt32.ofNat
    (2 ^ k * m) := by
  have hxor : c + 2 ^ k * m = c ^^^ 2 ^ k * m := by
    have hmod := Nat.xor_mod_two_pow (a := c) (b := 2 ^ k * m) (n := k)
    have hdiv := Nat.xor_div_two_pow (a := c) (b := 2 ^ k * m) (n := k)
    rw [Nat.mod_eq_of_lt hc, Nat.mul_mod_right, Nat.xor_zero] at hmod
    rw [Nat.div_eq_of_lt hc, Nat.mul_div_cancel_left _ (Nat.two_pow_pos k), Nat.zero_xor] at hdiv
    rw [← Nat.mod_add_div (c ^^^ 2 ^ k * m) (2 ^ k), hmod, hdiv]
  rw [hxor]
  apply UInt32.toNat.inj
  simp only [UInt32.toNat_xor, UInt32.toNat_ofNat']
  exact Nat.xor_mod_two_pow

theorem toNat_and_255 (l : UInt32) : (l &&& 0xff).toNat = l.toNat % 2 ^ 8 := by
  rw [UInt32.toNat_and]
  exact Nat.and_two_pow_sub_one_eq_mod _ 8

theorem toNat_shiftRight (l : UInt32) {s : UInt32} {k : ℕ} (hs : s.toNat = k) (hk : k < 32) :
    (l >>> s).toNat = l.toNat / 2 ^ k := by
  rw [UInt32.toNat_shiftRight, Nat.shiftRight_eq_div_pow, hs, Nat.mod_eq_of_lt hk]

theorem toNat_shiftRight_8 (l : UInt32) : (l >>> 8).toNat = l.toNat / 2 ^ 8 := toNat_shiftRight l rfl (by decide)

/-- A word is its four bytes. -/
theorem eq_xor_bytes (l : UInt32) : l = UInt32.ofNat ((l &&& 0xff).toNat * 1) ^^^
    UInt32.ofNat (((l >>> 8) &&& 0xff).toNat * 2 ^ 8) ^^^ UInt32.ofNat (((l >>> 16) &&& 0xff).toNat * 2 ^ 16) ^^^
      UInt32.ofNat ((l >>> 24).toNat * 2 ^ 24) := by
  have hlt := l.toNat_lt
  have h16 : (l >>> 16).toNat = l.toNat / 2 ^ 16 := toNat_shiftRight l rfl (by decide)
  have h24 : (l >>> 24).toNat = l.toNat / 2 ^ 24 := toNat_shiftRight l rfl (by decide)
  simp only [toNat_and_255, toNat_shiftRight_8, h16, h24, Nat.mul_one, Nat.mul_comm _ (2 ^ _)]
  rw [← ofNat_add (by omega), ← ofNat_add (by omega), ← ofNat_add (by omega)]
  conv_lhs => rw [← UInt32.ofNat_toNat (x := l)]
  congr 1
  omega

/-! ### The tables -/

/-- All exclusive ors of some words. -/
def combinations : List UInt32 → List UInt32
  | [] => [0]
  | b :: bs => combinations bs ++ (combinations bs).map (b ^^^ ·)

theorem Linear.combinations_map (h : Linear g) (bs : List UInt32) :
    combinations (bs.map g) = (combinations bs).map g := by
  induction bs with
  | nil => simp [combinations, h.zero]
  | cons b bs ih => simp [combinations, ih, h b, Function.comp_def]

/-- The bits of a byte at its place in a word, from the highest down. -/
def bits (place : ℕ) : List UInt32 := [128, 64, 32, 16, 8, 4, 2, 1].map fun c => UInt32.ofNat (c * place)

/-- A table whose entries are what `g` makes of one bit, and the exclusive ors of these, holds
what `g` makes of any byte. -/
theorem Linear.entry_eq (h : Linear g) (table : List UInt32) (place : ℕ)
    (hbits : combinations (bits place) = (List.range 256).map fun c => UInt32.ofNat (c * place))
    (htable : table = combinations ((bits place).map g)) {c : UInt32} (hc : c.toNat < 256) :
    entry table c = g (UInt32.ofNat (c.toNat * place)) := by
  rw [entry, htable, h.combinations_map, hbits, List.map_map, List.getD_eq_getElem?_getD, List.getElem?_map,
    List.getElem?_range hc]
  rfl

theorem entry_kByteExtensionTable {c : UInt32} (hc : c.toNat < 256) : entry kByteExtensionTable c = nextByte c := by
  have h := linear_nextByte.entry_eq kByteExtensionTable 1 (by decide +kernel) (by decide +kernel) hc
  rwa [Nat.mul_one, UInt32.ofNat_toNat] at h

/-- The stride tables move a register over 16 bytes. -/
theorem step4_eq (crc word : UInt32) : step4 crc word = word ^^^ nextByte^[16] crc := by
  have hlin : Linear nextByte^[16] := linear_nextByte.iterate 16
  have hbyte : ∀ l : UInt32, (l &&& 0xff).toNat < 256 := fun l => by rw [toNat_and_255]; omega
  have hhigh : (crc >>> 24).toNat < 256 := by
    have hlt := crc.toNat_lt
    rw [toNat_shiftRight crc (k := 24) rfl (by decide)]
    omega
  conv_rhs => rw [eq_xor_bytes crc, hlin, hlin, hlin]
  rw [step4, hlin.entry_eq kStrideExtensionTable3 1 (by decide +kernel) (by decide +kernel) (hbyte _),
    hlin.entry_eq kStrideExtensionTable2 (2 ^ 8) (by decide +kernel) (by decide +kernel) (hbyte _),
    hlin.entry_eq kStrideExtensionTable1 (2 ^ 16) (by decide +kernel) (by decide +kernel) (hbyte _),
    hlin.entry_eq kStrideExtensionTable0 (2 ^ 24) (by decide +kernel) (by decide +kernel) hhigh]
  simp only [UInt32.xor_assoc]

/-! ### One byte, one word -/

theorem shiftWord_eq (w : UInt32) : shiftWord w = nextByte w := by
  have hbyte : (w &&& 0xff).toNat < 256 := by rw [toNat_and_255]; omega
  have hw : w = (w &&& 0xff) ^^^ UInt32.ofNat (2 ^ 8 * (w >>> (8 : UInt32)).toNat) := by
    have hadd := ofNat_add (c := w.toNat % 2 ^ 8) (m := w.toNat / 2 ^ 8) (k := 8) (by omega)
    rw [Nat.mod_add_div, UInt32.ofNat_toNat] at hadd
    rw [toNat_shiftRight_8, ← UInt32.ofNat_toNat (x := w &&& (0xff : UInt32)), toNat_and_255]
    exact hadd
  have hlt := w.toNat_lt
  conv_rhs => rw [hw, linear_nextByte, nextByte_ofNat (by rw [toNat_shiftRight_8]; omega), UInt32.ofNat_toNat]
  rw [shiftWord, entry_kByteExtensionTable hbyte, UInt32.xor_comm]

theorem and_255_xor (l : UInt32) (b : UInt8) : (l &&& 0xff) ^^^ b.toUInt32 = (l ^^^ b.toUInt32) &&& 0xff := by
  have hb := b.toNat_lt
  apply UInt32.toNat.inj
  rw [UInt32.toNat_xor, toNat_and_255, toNat_and_255, UInt32.toNat_xor, Nat.xor_mod_two_pow, UInt8.toNat_toUInt32,
    Nat.mod_eq_of_lt (a := b.toNat) (by omega)]

theorem step1_eq (l : UInt32) (b : UInt8) : step1 l b = takeByte l b := by
  have hb := b.toNat_lt
  have hhigh : l >>> 8 = (l ^^^ b.toUInt32) >>> 8 := by
    apply UInt32.toNat.inj
    rw [toNat_shiftRight_8, toNat_shiftRight_8, UInt32.toNat_xor, Nat.xor_div_two_pow, UInt8.toNat_toUInt32,
      Nat.div_eq_of_lt (a := b.toNat) (by omega), Nat.xor_zero]
  rw [step1, and_255_xor, hhigh, takeByte, ← shiftWord_eq, shiftWord, UInt32.xor_comm]

/-- The number that some bytes encode, the lowest first. -/
def littleEndian : List UInt8 → ℕ
  | [] => 0
  | b :: bs => b.toNat + 2 ^ 8 * littleEndian bs

theorem littleEndian_lt (bs : List UInt8) : littleEndian bs < 2 ^ (8 * bs.length) := by
  induction bs with
  | nil => simp [littleEndian]
  | cons b bs ih =>
    have hb := b.toNat_lt
    rw [littleEndian, List.length_cons, Nat.mul_succ, pow_add]
    omega

/-- Up to four bytes may be taken at once. -/
theorem foldl_takeByte (bs : List UInt8) (h : bs.length ≤ 4) (l : UInt32) :
    bs.foldl takeByte l = nextByte^[bs.length] (l ^^^ UInt32.ofNat (littleEndian bs)) := by
  induction bs generalizing l with
  | nil => simp [littleEndian]
  | cons b bs ih =>
    rw [List.length_cons] at h
    have hb : UInt32.ofNat b.toNat = b.toUInt32 := UInt32.toNat.inj (by simp)
    have hlt : littleEndian bs < 2 ^ 24 :=
      Nat.lt_of_lt_of_le (littleEndian_lt bs) (Nat.pow_le_pow_right Nat.two_pos (by omega))
    rw [List.foldl_cons, ih (by omega), List.length_cons, Function.iterate_succ_apply, takeByte, ← nextByte_ofNat hlt,
      ← linear_nextByte, littleEndian, ofNat_add (k := 8) b.toNat_lt, hb, UInt32.xor_assoc]

theorem foldl_takeByte_word (h : 4 ≤ p.length) (l : UInt32) :
    p.foldl takeByte l = (p.drop 4).foldl takeByte (nextByte^[4] (l ^^^ readUint32LE p)) := by
  have hword : readUint32LE p = UInt32.ofNat (littleEndian (p.take 4)) := by
    rcases p with _ | ⟨b₀, _ | ⟨b₁, _ | ⟨b₂, _ | ⟨b₃, rest⟩⟩⟩⟩ <;> simp at h
    rw [readUint32LE, decodeFixed32]
    congr 1
    simp only [List.take_succ_cons, List.take_zero, littleEndian]
    omega
  have htake := foldl_takeByte (p.take 4) (by rw [List.length_take]; exact Nat.min_le_left _ _) l
  rw [List.length_take, Nat.min_eq_left h, ← hword] at htake
  rw [← htake, ← List.foldl_append, List.take_append_drop]

/-! ### Registers -/

namespace Strides

/-- What the registers stand for. -/
def combined (s : Strides) : UInt32 :=
  nextByte^[4] (nextByte^[4] (nextByte^[4] (nextByte^[4] s.crc0 ^^^ s.crc1) ^^^ s.crc2) ^^^ s.crc3)

theorem combine_eq (s : Strides) : s.combine = s.combined := by
  have hshift : shiftWord = nextByte := funext shiftWord_eq
  simp only [combine, combined, step4W, hshift, UInt32.xor_zero, UInt32.xor_comm]

/-- One word more, for the register whose turn it is. -/
theorem combined_word (s : Strides) (word : UInt32) :
    nextByte^[4] (s.combined ^^^ word) = combined ⟨s.crc1, s.crc2, s.crc3, step4 s.crc0 word⟩ := by
  have hlin : Linear nextByte^[4] := linear_nextByte.iterate 4
  have h16 : ∀ l, nextByte^[16] l = nextByte^[4] (nextByte^[4] (nextByte^[4] (nextByte^[4] l))) := by
    intro l
    rw [← Function.iterate_add_apply, ← Function.iterate_add_apply, ← Function.iterate_add_apply]
  simp only [combined, step4_eq, h16, hlin _ _]
  ac_rfl

theorem foldl_combined_word (s : Strides) (h : 4 ≤ p.length) :
    p.foldl takeByte s.combined =
      (p.drop 4).foldl takeByte (combined ⟨s.crc1, s.crc2, s.crc3, step4 s.crc0 (readUint32LE p)⟩) := by
  rw [foldl_takeByte_word h, combined_word]

/-- A swath is one word for each register. -/
theorem foldl_combined_step16 (s : Strides) (h : 16 ≤ p.length) :
    p.foldl takeByte s.combined = (p.drop 16).foldl takeByte (s.step16 p).combined := by
  rw [foldl_combined_word s (by omega), foldl_combined_word _ (by rw [List.length_drop]; omega), List.drop_drop,
    foldl_combined_word _ (by rw [List.length_drop]; omega), List.drop_drop,
    foldl_combined_word _ (by rw [List.length_drop]; omega), List.drop_drop]
  rfl

theorem foldl_combined_swaths (s : Strides) (p : List UInt8) :
    p.foldl takeByte s.combined = (s.swaths p).2.foldl takeByte (s.swaths p).1.combined := by
  induction s, p using swaths.induct with
  | case1 s p h ih =>
    rw [foldl_combined_step16 s h, ih]
    conv_rhs => rw [swaths, if_pos h]
  | case2 s p h => rw [swaths, if_neg h]

theorem foldl_combined_words (s : Strides) (p : List UInt8) :
    p.foldl takeByte s.combined = (s.words p).2.foldl takeByte (s.words p).1.combined := by
  induction s, p using words.induct with
  | case1 s p h ih =>
    rw [foldl_combined_word s h, ih]
    conv_rhs => rw [words, if_pos h]
  | case2 s p h => rw [words, if_neg h]

end Strides

/-- The registers begin with the first 16 bytes. -/
theorem foldl_extendStrides (l : UInt32) (h : 16 ≤ p.length) :
    p.foldl takeByte l = (extendStrides l p).2.foldl takeByte (extendStrides l p).1 := by
  rw [foldl_takeByte_word (by omega), foldl_takeByte_word (by rw [List.length_drop]; omega), List.drop_drop,
    foldl_takeByte_word (by rw [List.length_drop]; omega), List.drop_drop,
    foldl_takeByte_word (by rw [List.length_drop]; omega), List.drop_drop, UInt32.xor_comm l]
  simp only [extendStrides, Strides.combine_eq, ← Strides.foldl_combined_words, ← Strides.foldl_combined_swaths]
  rfl

theorem extend_eq_crc32c (crc : UInt32) (pointer : ℕ) (data : List UInt8) : extend crc pointer data = crc32c crc data := by
  have hstep : step1 = takeByte := funext fun l => funext fun b => step1_eq l b
  unfold extend crc32c
  extract_lets l skip
  rw [hstep]
  -- the bytes up to the first aligned address
  generalize hp : (if skip ≤ data.length then ((data.take skip).foldl takeByte l, data.drop skip) else (l, data)) = lp
  have hskip : data.foldl takeByte l = lp.2.foldl takeByte lp.1 := by
    rw [← hp]
    split_ifs
    · rw [← List.foldl_append, List.take_append_drop]
    · rfl
  rw [hskip]
  obtain ⟨l', p⟩ := lp
  dsimp only
  split_ifs with hlong
  · rw [foldl_extendStrides l' hlong]
  · rfl

/-- **`Extend` computes the checksum**, at whatever address the string is, and can be taken up
where it was left. -/
theorem extend_eq_and_append : (∀ crc pointer data, extend crc pointer data = crc32c crc data) ∧
    ∀ crc pointer₁ a pointer₂ b pointer, extend (extend crc pointer₁ a) pointer₂ b = extend crc pointer (a ++ b) := by
  refine ⟨extend_eq_crc32c, fun crc pointer₁ a pointer₂ b pointer => ?_⟩
  rw [extend_eq_crc32c, extend_eq_crc32c, extend_eq_crc32c, crc32c_append]

end TLevelDB.Crc32c
