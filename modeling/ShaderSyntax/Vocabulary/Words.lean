import ShaderSyntax.Text

/-!
# The word lists

The closed vocabularies of the shading language. No word stands in two of them.
-/
namespace ShaderSyntax.Vocabulary

def precisionQualifiers : List Text :=
  ["lowp", "mediump", "highp"].map Text.ofString

def interpolationQualifiers : List Text :=
  ["smooth", "flat"].map Text.ofString

def paramQualifiers : List Text :=
  ["in", "out", "inout"].map Text.ofString

def shaderTypes : List Text :=
  ["spatial", "canvas_item", "particles", "sky", "fog"].map Text.ofString

def renderModes : List Text :=
  ["blend_add", "blend_sub", "blend_mul", "blend_premul_alpha", "blend_disabled", "unshaded",
   "light_only", "skip_vertex_transform", "world_vertex_coords", "keep_data", "disable_force",
   "disable_velocity", "collision_use_scale", "use_half_res_pass", "use_quarter_res_pass",
   "disable_fog", "depth_draw_opaque", "depth_draw_always", "depth_draw_never",
   "depth_prepass_alpha", "depth_test_disabled", "sss_mode_skin", "cull_back", "cull_front",
   "cull_disabled", "wireframe", "diffuse_burley", "diffuse_lambert", "diffuse_lambert_wrap",
   "diffuse_toon", "specular_schlick_ggx", "specular_toon", "specular_disabled",
   "ensure_correct_normals", "shadows_disabled", "ambient_light_disabled", "shadow_to_opacity",
   "vertex_lighting", "particle_trails", "alpha_to_coverage", "alpha_to_coverage_and_one",
   "fog_disabled"].map Text.ofString

def hintNames : List Text :=
  ["source_color", "hint_range", "hint_normal", "hint_default_white", "hint_default_black",
   "hint_default_transparent", "hint_anisotropy", "hint_roughness_r", "hint_roughness_g",
   "hint_roughness_b", "hint_roughness_a", "hint_roughness_normal", "hint_roughness_gray",
   "filter_nearest", "filter_linear", "filter_mipmap", "filter_anisotropic", "repeat_enable",
   "repeat_disable", "hint_screen_texture", "hint_depth_texture", "hint_normal_roughness_texture"].map Text.ofString

def builtinTypes : List Text :=
  ["void", "bool", "bvec2", "bvec3", "bvec4", "int", "ivec2", "ivec3", "ivec4", "uint", "uvec2",
   "uvec3", "uvec4", "float", "vec2", "vec3", "vec4", "mat2", "mat3", "mat4", "sampler2D",
   "isampler2D", "usampler2D", "sampler2DArray", "isampler2DArray", "usampler2DArray",
   "sampler3D", "isampler3D", "usampler3D", "samplerCube", "samplerCubeArray"].map Text.ofString

def builtinVariables : List Text :=
  ["TIME", "PI", "TAU", "E", "ACTIVE", "ALBEDO", "ALPHA", "ALPHA_ANTIALIASING_EDGE",
   "ALPHA_HASH_SCALE", "ALPHA_SCISSOR_THRESHOLD", "ALPHA_TEXTURE_COORDINATE", "AMOUNT_RATIO",
   "ANISOTROPY", "ANISOTROPY_FLOW", "AO", "AO_LIGHT_AFFECT", "ATTENUATION", "ATTRACTOR_FORCE",
   "AT_CUBEMAP_PASS", "AT_HALF_RES_PASS", "AT_LIGHT_PASS", "AT_QUARTER_RES_PASS", "BACKLIGHT",
   "BINORMAL", "BONE_INDICES", "BONE_WEIGHTS", "CAMERA_DIRECTION_WORLD", "CAMERA_POSITION_WORLD",
   "CANVAS_MATRIX", "CLEARCOAT", "CLEARCOAT_GLOSS", "COLLIDED", "COLLISION_DEPTH",
   "COLLISION_NORMAL", "CUSTOM", "DELTA", "DENSITY", "DEPTH", "DEPTH_TEXTURE", "DIFFUSE_LIGHT",
   "EMISSION", "EMISSION_TRANSFORM", "EMITTER_VELOCITY", "EYEDIR", "EYE_OFFSET",
   "FLAG_EMIT_COLOR", "FLAG_EMIT_CUSTOM", "FLAG_EMIT_POSITION", "FLAG_EMIT_ROT_SCALE",
   "FLAG_EMIT_VELOCITY", "FOG", "FRAGCOORD", "FRONT_FACING", "HALF_RES_COLOR", "INDEX",
   "INTERPOLATE_TO_END", "INV_PROJECTION_MATRIX", "INV_VIEW_MATRIX", "IRRADIANCE", "LIFETIME",
   "LIGHT", "LIGHTX_COLOR", "LIGHTX_DIRECTION", "LIGHTX_ENABLED", "LIGHTX_ENERGY", "LIGHTX_SIZE",
   "LIGHT_COLOR", "LIGHT_IS_DIRECTIONAL", "LIGHT_VERTEX", "MASS", "METALLIC", "MODELVIEW_MATRIX",
   "MODELVIEW_NORMAL_MATRIX", "MODEL_MATRIX", "MODEL_NORMAL_MATRIX", "NODE_POSITION_VIEW",
   "NODE_POSITION_WORLD", "NORMAL", "NORMAL_MAP", "NORMAL_MAP_DEPTH", "NORMAL_TEXTURE", "NUMBER",
   "OBJECT_POSITION", "OUTPUT_IS_SRGB", "POINT_COORD", "POSITION", "PROJECTION_MATRIX",
   "QUARTER_RES_COLOR", "RADIANCE", "RANDOM_SEED", "RESTART", "RESTART_COLOR", "RESTART_CUSTOM",
   "RESTART_POSITION", "RESTART_ROT_SCALE", "RESTART_VELOCITY", "RIM", "RIM_TINT", "ROUGHNESS",
   "SCREEN_MATRIX", "SCREEN_TEXTURE", "SCREEN_UV", "SDF", "SHADOW_VERTEX", "SIZE", "SKY_COORDS",
   "SPECULAR_AMOUNT", "SPECULAR_LIGHT", "SPECULAR_SHININESS", "SPECULAR_SHININESS_TEXTURE",
   "SSS_STRENGTH", "SSS_TRANSMITTANCE_BOOST", "SSS_TRANSMITTANCE_COLOR",
   "SSS_TRANSMITTANCE_DEPTH", "TANGENT", "TEXTURE_PIXEL_SIZE", "TRANSFORM", "USERDATAX", "UV",
   "UV2", "UVW", "VELOCITY", "VERTEX", "VIEW", "VIEWPORT_SIZE", "VIEW_INDEX", "VIEW_MATRIX",
   "VIEW_MONO_LEFT", "VIEW_RIGHT", "WORLD_POSITION"].map Text.ofString

def builtinFunctions : List Text :=
  ["radians", "degrees", "sin", "cos", "tan", "asin", "acos", "atan", "sinh", "cosh", "tanh",
   "asinh", "acosh", "atanh", "pow", "exp", "exp2", "log", "log2", "sqrt", "inversesqrt", "abs",
   "sign", "floor", "round", "roundEven", "trunc", "ceil", "fract", "mod", "modf", "min", "max",
   "clamp", "mix", "fma", "step", "smoothstep", "isnan", "isinf", "floatBitsToInt",
   "floatBitsToUint", "intBitsToFloat", "uintBitsToFloat", "length", "distance", "dot", "cross",
   "normalize", "reflect", "refract", "faceforward", "matrixCompMult", "outerProduct",
   "transpose", "determinant", "inverse", "lessThan", "greaterThan", "lessThanEqual",
   "greaterThanEqual", "equal", "notEqual", "any", "all", "not", "textureSize", "textureQueryLod",
   "textureQueryLevels", "texture", "textureProj", "textureLod", "textureProjLod", "textureGrad",
   "textureProjGrad", "texelFetch", "textureGather", "dFdx", "dFdxCoarse", "dFdxFine", "dFdy",
   "dFdyCoarse", "dFdyFine", "fwidth", "fwidthCoarse", "fwidthFine", "packHalf2x16",
   "unpackHalf2x16", "packUnorm2x16", "unpackUnorm2x16", "packSnorm2x16", "unpackSnorm2x16",
   "packUnorm4x8", "unpackUnorm4x8", "packSnorm4x8", "unpackSnorm4x8", "bitfieldExtract",
   "bitfieldInsert", "bitfieldReverse", "bitCount", "findLSB", "findMSB", "imulExtended",
   "umulExtended", "uaddCarry", "usubBorrow", "ldexp", "frexp", "emit_subparticle"].map Text.ofString

/-- The boolean literals, which are words by shape and literals by use. -/
def booleans : List Text :=
  ["true", "false"].map Text.ofString

end ShaderSyntax.Vocabulary
