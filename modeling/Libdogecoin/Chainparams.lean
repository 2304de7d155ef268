/-
# Chain parameters

The fields of `dogecoin_chainparams` that validation and header sync read, with the values of
`chainparams.c`, and the checkpoint arrays. A hash is given by its little-endian value, which is
how its display string reads.

* `mainnetCheckpointArray_increasing`, `testnetCheckpointArray_increasing` : each array lists
  strictly increasing heights from the genesis block.
-/
import Libdogecoin.Serialize

namespace Libdogecoin

/-- The fields of `dogecoin_chainparams` that validation and header sync read. -/
structure ChainParams where
  chainname : String
  genesisblockhash : Uint256
  genesisblockchainwork : Uint256
  strictId : Bool
  /-- Declared as a `dogecoin_bool`, an 8-bit integer. -/
  auxpowId : UInt8
  powLimit : Uint256
  deriving DecidableEq

/-- `dogecoin_chainparams_main`. -/
def dogecoinChainparamsMain : ChainParams where
  chainname := "main"
  genesisblockhash := Uint256.ofNat
    0x1a91e3dace36e2be3bf030a65679fe821aa1d6ef92e7c9902eb318182c355691
  genesisblockchainwork := Uint256.ofNat 0x100010
  strictId := true
  auxpowId := 0x62
  powLimit := Uint256.ofNat 0x00000fffffffffffffffffffffffffffffffffffffffffffffffffffffffffff

/-- `dogecoin_chainparams_test`. -/
def dogecoinChainparamsTest : ChainParams where
  chainname := "testnet3"
  genesisblockhash := Uint256.ofNat
    0xbb0a78264637406b6360aad926284d544d7049f45189db5664f3c4d07350559e
  genesisblockchainwork := Uint256.ofNat 0x100010
  strictId := false
  auxpowId := 0x62
  powLimit := Uint256.ofNat 0x00000fffffffffffffffffffffffffffffffffffffffffffffffffffffffffff

/-- `dogecoin_chainparams_regtest`. -/
def dogecoinChainparamsRegtest : ChainParams where
  chainname := "regtest"
  genesisblockhash := Uint256.ofNat
    0x3d2160a3b5dc4a9d62e7e66a295f70313ac808440ef7400d6c0772171ce973a5
  genesisblockchainwork := Uint256.ofNat 0x2
  strictId := true
  auxpowId := 0x62
  powLimit := Uint256.ofNat 0x7fffffffffffffffffffffffffffffffffffffffffffffffffffffffffffffff

/-- The fields of `dogecoin_checkpoint` that header sync reads. -/
structure Checkpoint where
  height : ℕ
  hash : Uint256
  deriving DecidableEq

/-- `dogecoin_mainnet_checkpoint_array`. -/
def mainnetCheckpointArray : List Checkpoint := [
  ⟨0, .ofNat 0x1a91e3dace36e2be3bf030a65679fe821aa1d6ef92e7c9902eb318182c355691⟩,
  ⟨100000, .ofNat 0x13ab3b961fcc500c03f51279385c42e9f055d48a37dfa72d0073c0d3f595036b⟩,
  ⟨104679, .ofNat 0x35eb87ae90d44b98898fec8c39577b76cb1eb08e1261cfc10706c8ce9a1d01cf⟩,
  ⟨145000, .ofNat 0xcc47cae70d7c5c92828d3214a266331dde59087d4a39071fa76ddfff9b7bde72⟩,
  ⟨200000, .ofNat 0x092fd3e76db5ff35fbfefe48d5c53ca26e799f0654a4036ddd5fd78de77418c2⟩,
  ⟨300000, .ofNat 0x7c2b3b8cb1629fa014a29e85cd7b0fe7876ce3def8899ba4c0945c0de2ad7902⟩,
  ⟨371337, .ofNat 0x60323982f9c5ff1b5a954eac9dc1269352835f47c2c5222691d80f0d50dcf053⟩,
  ⟨450000, .ofNat 0xd279277f8f846a224d776450aa04da3cf978991a182c6f3075db4c48b173bbd7⟩,
  ⟨500000, .ofNat 0x92ae1083b7b3c22fd7b4ce2eae121d518f8e1aa81d0be9432ce5aa20a2954fcc⟩,
  ⟨600000, .ofNat 0xcaa5446c05c8e51cf7985a6cb4da4dc2b730e4ec399dc95b2a094df6bdd4f268⟩,
  ⟨700000, .ofNat 0xeac853ae22d59a498386241a3de69a36739ccc9e0a6acfd617b64c5ea4a0f4b3⟩,
  ⟨771275, .ofNat 0x1b7d789ed82cbdc640952e7e7a54966c6488a32eaad54fc39dff83f310dbaaed⟩,
  ⟨800000, .ofNat 0x773fbb34e1bfe82467eb24cda8769dfdcd13a5b4dac4c8f9f6534c40301f7fbf⟩,
  ⟨900000, .ofNat 0x5235e97ba5ae95c04300daed8d75dca2ed6eef9be42d433d985d3203639a4a66⟩,
  ⟨1000000, .ofNat 0x6aae55bea74235f0c80bd066349d4440c31f2d0f27d54265ecd484d8c1d11b47⟩,
  ⟨1100000, .ofNat 0xd48fef240e48d9395d08c2ec4fe9c6d5554091a107e1c0fddedf5db3a435d96e⟩,
  ⟨1200000, .ofNat 0x1f8ef813b31ec896e3f7f064d6637e251242ba95c1bb12ca339e55b0614a53db⟩,
  ⟨1250000, .ofNat 0x00c7a442055c1a990e11eea5371ca5c1c02a0677b33cc88ec728c45edc4ec060⟩,
  ⟨1300000, .ofNat 0x80be4067b5dc8e3db9b787ca4a69c09b3478b6434edc51bc8984db1a79fa620f⟩,
  ⟨1400000, .ofNat 0x18c7078848109e3d95706f639f1501550765e4675a02ddb8bfe3a703bb49fb8f⟩,
  ⟨1500000, .ofNat 0xf1d32d6920de7b617d51e74bdf4e58adccaa582ffdc8657464454f16a952fca6⟩,
  ⟨1600000, .ofNat 0xca5eb72f1e0d160f1481f74d56d7cc4a27d91aa585ba012da8018a5fe934d61b⟩,
  ⟨1700000, .ofNat 0xc151a40f121a4f0ee0078e0268563c8299ad12652f939d9c6880aab9a93c1969⟩,
  ⟨1750000, .ofNat 0x5c8e7327984f0d6f59447d89d143e5f6eafc524c82ad95d176c5cec082ae2001⟩,
  ⟨1800000, .ofNat 0xc90be6e4d4dfd4f6cfa37e17afe2cb423d82a1af726f402244b4607d155bd021⟩,
  ⟨1900000, .ofNat 0x6ab174805b47f1c93d69fbd37876375cacf57c075b3039561ddb05759f0853c0⟩,
  ⟨2000000, .ofNat 0x9914f0e82e39bbf21950792e8816620d71b9965bdbbc14e72a95e3ab9618fea8⟩,
  ⟨2031142, .ofNat 0x893297d89afb7599a3c571ca31a3b80e8353f4cf39872400ad0f57d26c4c5d42⟩,
  ⟨2100000, .ofNat 0x4f95b8f837f139f512dd8ba26fe4dd702271394daccb29007dc52938c96ccf85⟩,
  ⟨2200000, .ofNat 0x7027f0e32f0566f39367580dfb9d42157608fc7ce4483bf2471beb68b3b3f26e⟩,
  ⟨2250000, .ofNat 0x0a87a8d4e40dca52763f93812a288741806380cd569537039ee927045c6bc338⟩,
  ⟨2300000, .ofNat 0x2f391edf30851d6ab71e1100a907d314190a15764da600e478730369db422f93⟩,
  ⟨2400000, .ofNat 0x41a17417233ec887dfd5950c731e64abfab5fe230353d226a6a3de580e59c3bf⟩,
  ⟨2500000, .ofNat 0x3352c854b77d6946fabed44b4451bc998a48dbbcc2dbc1d313f47b0e8a782d18⟩,
  ⟨2510150, .ofNat 0x77e3f4a4bcb4a2c15e8015525e3d15b466f6c022f6ca82698f329edef7d9777e⟩,
  ⟨2600000, .ofNat 0x37bd4bb2b345ca3bc7035adf8850632159d965878f7ab59fbcb4ffd382895a03⟩,
  ⟨2700000, .ofNat 0xe76b5a769f05c868c831e067946ce32221ad3e163b4bfd96ae2745233587e7cd⟩,
  ⟨2750000, .ofNat 0xd4f8abb835930d3c4f92ca718aaa09bef545076bd872354e0b2b85deefacf2e3⟩,
  ⟨2800000, .ofNat 0x5af3d9109a9c3a75179a9a85f385ca5e045a40dcb4f716ad907beae3d5ee662b⟩,
  ⟨2900000, .ofNat 0x7bc6c24835317d4944a468a27a112eae5d564fc53cf366e34c8c7452f30e09e5⟩,
  ⟨3000000, .ofNat 0x195a83b091fb3ee7ecb56f2e63d01709293f57f971ccf373d93890c8dc1033db⟩,
  ⟨3100000, .ofNat 0xc7970179a8433e85b13a4930f80367a05a50c1f4b8878b31cb4b0ca7506f04c1⟩,
  ⟨3200000, .ofNat 0x1026822a0313b2466ddc13c251dd98072430708cc53c56e43e71dd9ab0625437⟩,
  ⟨3250000, .ofNat 0x7f3e28bf9e309c4b57a4b70aa64d3b2ea5250ae797af84976ddc420d49684034⟩,
  ⟨3300000, .ofNat 0x76f7f333faf010117d9ca7dd0c6200456dcbffa03b31dee66541966347589b8b⟩,
  ⟨3400000, .ofNat 0x20588e8f8ce89cab1f894ef80faf935c631df24229a1a42bafee781d9a57a454⟩,
  ⟨3500000, .ofNat 0xeaa303b93c1c64d2b3a2cdcf6ccf21b10cc36626965cc2619661e8e1879abdfb⟩,
  ⟨3600000, .ofNat 0x3319474fec2b5cbc57df8a8b976fbbb4907d5315b23943daf58bc6ce0bba9347⟩,
  ⟨3606083, .ofNat 0x954c7c66dee51f0a3fb1edb26200b735f5275fe54d9505c76ebd2bcabac36f1e⟩,
  ⟨3700000, .ofNat 0xd0f0af23aadcf6b8d4a681ee930e39d1e64aca967187fa8a0c655c6dacfa22ce⟩,
  ⟨3800000, .ofNat 0x0e1a1b524408f5d3e23fc461351daf9469976679e37cfc321ab2e06a3cb4f01a⟩,
  ⟨3854173, .ofNat 0xe4b4ecda4c022406c502a247c0525480268ce7abbbef632796e8ca1646425e75⟩,
  ⟨3900000, .ofNat 0x3815e66fe50a8c9770c04306626fa6f6be7a087a5e03c0b014ffee470dbb215e⟩,
  ⟨3963597, .ofNat 0x2b6927cfaa5e82353d45f02be8aadd3bfd165ece5ce24b9bfa4db20432befb5d⟩,
  ⟨4000000, .ofNat 0x47f227cd54c270aa18c5136635fc003a11cb82d6f8319dd8dab180a2f5555a9e⟩,
  ⟨4100000, .ofNat 0x8112b8a11dd3d1965cab6ccc0175abca62ec6b1225ad303e72e94efac635007e⟩,
  ⟨4200000, .ofNat 0x93da94c346ff5299ff400be4c1008aae99e9b70ef74db22820e42049ce14c6b4⟩,
  ⟨4300000, .ofNat 0x337d3b4bf937e2f9513e064b58253c9d0f188b7b928d570b07c03651d47e250f⟩,
  ⟨4303965, .ofNat 0xed7d266dcbd8bb8af80f9ccb8deb3e18f9cc3f6972912680feeb37b090f8cee0⟩,
  ⟨4400000, .ofNat 0x367bdf79d7c527a3f79430d72cf62a8201ba52edd608410a6da1b1ab7311e04d⟩,
  ⟨4500000, .ofNat 0x66d27fdeb0f694d06d1276b2d3d72c4dbefe294651ddc1ade220951823243396⟩,
  ⟨4600000, .ofNat 0x75323db271259899e66cbf4cfab33dcc034527e34bdc75b9a70e1b2deec1aad1⟩,
  ⟨4700000, .ofNat 0x748844093ba9fd6ba002ed2d0c9857c0292f1fb4aeb949d2fa8f0d438a18387f⟩,
  ⟨4800000, .ofNat 0xa1e58e27594bbc04f9c021c9f73771852260fce5e09e86071d34c74a8a116d01⟩,
  ⟨4900000, .ofNat 0x8bc08384ae8f17e0891159f3cd5783c07a62bd37c3a67d8d5e1bd292addced46⟩,
  ⟨5000000, .ofNat 0x5ae6eadfe5fd98fa7f388b671c4863db4b62e46eecc054465a276d419500e469⟩,
  ⟨5050000, .ofNat 0xe7d4577405223918491477db725a393bcfc349d8ee63b0a4fde23cbfbfd81dea⟩,
  ⟨5100000, .ofNat 0xa60110809b403aecd06185ec73753ddfd21dbc243e82c5ef76c88648d1b7b718⟩,
  ⟨5200000, .ofNat 0x06381a6241f120951a2f751851f50320e059b084ebc639c6b9d7d8b076d1f0bc⟩,
  ⟨5300000, .ofNat 0x8ccc7ebe3d4a97bfdf1993145114f654c537a9b06bc89bb12beabc954fb3110f⟩,
  ⟨5400000, .ofNat 0xcbb1f4ae807da83e13bdf9c28188982938c9ee6bf560c1023f51adac229eef87⟩,
  ⟨5500000, .ofNat 0xa2c15e69513051e6c01cce388718efa7a803f52766e6dc91624812e32250c56e⟩,
  ⟨5600000, .ofNat 0x39c02091aa7b8ad483a87957b12bdf4c7c6ebcc5dfe2c4648c4d235b40961c8d⟩,
  ⟨5700000, .ofNat 0x28ef0c3aa091c839048bba16bcee4df442961e2bc4e42bda407906f71e5b594d⟩,
  ⟨5800000, .ofNat 0x8d1540c92ec87451d73573fec3720ca7e835e630538096e3e11c56dec8205e2e⟩,
  ⟨5900000, .ofNat 0x9eb4809b6bf358a5bf9fbddf82da9ff4f047ef76577d2939efabefc7bd6ced07⟩,
  ⟨6000000, .ofNat 0x7af46caeb390c15e5d92b4aa58854b55351b43fe5fc714e359b31d0ce019a187⟩,
  ⟨6100000, .ofNat 0xbdeff3efe99a8203ad2baae74e50c29f5158227ff03d0bb7ffa3ff9fbd25dee3⟩,
  ⟨6148124, .ofNat 0x0f4d009c402553dbec50012ace7e224018595e4b788d1af78cea72eb6401d959⟩,
  ⟨6154988, .ofNat 0x8ca6972c34a2154b6ae6f15996de8d1a794477ec0add439ee1279bd9a21b2eed⟩,
  ⟨6156000, .ofNat 0xe8257a8929faef98929dc4e006bf405ec0fdfa93cb29b6d336a04e6b4d7bd02e⟩,
  ⟨6156600, .ofNat 0x2b17dfd7a717852058940928fd87b438971c29573474589abb427480ea7db83f⟩,
  ⟨6169760, .ofNat 0x7296ff3bbbc905a0a6d9ca290fb4fcead9b5e9ddbc5be752aa20cd0d789d0316⟩,
  ⟨6173706, .ofNat 0x1a59af827274d479127434728f9e1885a45b9a252bab246d039045822e671aa5⟩,
  ⟨6189700, .ofNat 0xa6ed6d6b03668d0bb9baddfbc52565b2514d02f118d6d0298a6ca48d511d7804⟩,
  ⟨6191600, .ofNat 0xa8eeeadc81e8def69167f0d82c50c4d05fdb0c6ffd17a6af955f80d6925e0f0d⟩,
  ⟨6201360, .ofNat 0x0bb1dbb971969f89f1c4c6305396042de1d6a390d71a44b066255c844da9256c⟩,
  ⟨6250000, .ofNat 0x197f31497b1e3b506da36eb6126738e3206e42fdff240844f8b75ae4ebc29519⟩,
  ⟨6275000, .ofNat 0x63c89f44fe3ce35d6abaa297d32d75826ce4368027e098f816432f68c2bedbd6⟩,
  ⟨6300000, .ofNat 0xe35560d7a6dda44da8fd5d3fea4025319ac5d6287dc3c1308cde650e51e12e58⟩]

/-- `dogecoin_testnet_checkpoint_array`. -/
def testnetCheckpointArray : List Checkpoint := [
  ⟨0, .ofNat 0xbb0a78264637406b6360aad926284d544d7049f45189db5664f3c4d07350559e⟩,
  ⟨483173, .ofNat 0xa804201ca0aceb7e937ef7a3c613a9b7589245b10cc095148c4ce4965b0b73b5⟩,
  ⟨591117, .ofNat 0x5f6b93b2c28cedf32467d900369b8be6700f0649388a7dbfd3ebd4a01b1ffad8⟩,
  ⟨658924, .ofNat 0xed6c8324d9a77195ee080f225a0fca6346495e08ded99bcda47a8eea5a8a620b⟩,
  ⟨703635, .ofNat 0x839fa54617adcd582d53030a37455c14a87a806f6615aa8213f13e196230ff7f⟩,
  ⟨1000000, .ofNat 0x1fe4d44ea4d1edb031f52f0d7c635db8190dc871a190654c41d2450086b8ef0e⟩,
  ⟨1202214, .ofNat 0xa2179767a87ee4e95944703976fee63578ec04fa3ac2fc1c9c2c83587d096977⟩,
  ⟨1250000, .ofNat 0xb46affb421872ca8efa30366b09694e2f9bf077f7258213be14adb05a9f41883⟩,
  ⟨1500000, .ofNat 0x0caa041b47b4d18a4f44bdc05cef1a96d5196ce7b2e32ad3e4eb9ba505144917⟩,
  ⟨1750000, .ofNat 0x8042462366d854ad39b8b95ed2ca12e89a526ceee5a90042d55ebb24d5aab7e9⟩,
  ⟨2000000, .ofNat 0xd6acde73e1b42fc17f29dcc76f63946d378ae1bd4eafab44d801a25be784103c⟩,
  ⟨2250000, .ofNat 0xc4342ae6d9a522a02e5607411df1b00e9329563ef844a758d762d601d42c86dc⟩,
  ⟨2500000, .ofNat 0x3a66ec4933fbb348c9b1889aaf2f732fe429fd9a8f74fee6895eae061ac897e2⟩,
  ⟨2750000, .ofNat 0x473ea9f625d59f534ffcc9738ffc58f7b7b1e0e993078614f5484a9505885563⟩,
  ⟨3062910, .ofNat 0x113c41c00934f940a41f99d18b2ad9aefd183a4b7fe80527e1e6c12779bd0246⟩,
  ⟨3286675, .ofNat 0x07fef07a255d510297c9189dc96da5f4e41a8184bc979df8294487f07fee1cf3⟩,
  ⟨3445426, .ofNat 0x70574db7856bd685abe7b0a8a3e79b29882620645bd763b01459176bceb58cd1⟩,
  ⟨3976284, .ofNat 0xaf23c3e750bb4f2ce091235f006e7e4e2af453d4c866282e7870471dcfeb4382⟩,
  ⟨5900000, .ofNat 0x199bea6a442310589cbb50a193a30b097c228bd5a0f21af21e4e53dd57c382d3⟩,
  ⟨41595117, .ofNat 0xff15d3837501029b27f34419ceb76c283be15159b6aecca38e11cd9f55f2ec85⟩,
  ⟨41598400, .ofNat 0x5fab0f828e47da930d5a010ab6d6204b185362e062f70b24b16f696135fdc9e5⟩,
  ⟨44518499, .ofNat 0x11d7c46c746b7bd3b52e519cfa736dee5c301046ee44a25f80c34f32cc2950ae⟩,
  ⟨44531497, .ofNat 0x274f5820c16f7fd40719c3018648a51efc97a608c0cc069a108c0fd1ef8da091⟩,
  ⟨46533515, .ofNat 0xc5e11996abc86dfaabffbe3c653301ff106bf689e8f57f6d20377c0fccd86a3a⟩]

theorem mainnetCheckpointArray_increasing :
    (mainnetCheckpointArray.map Checkpoint.height).IsChain (· < ·) := by
  decide +kernel

theorem testnetCheckpointArray_increasing :
    (testnetCheckpointArray.map Checkpoint.height).IsChain (· < ·) := by
  decide +kernel

end Libdogecoin
